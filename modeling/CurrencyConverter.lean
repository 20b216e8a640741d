import CurrencyConverter.Transition
import CurrencyConverter.WaitGroup
import CurrencyConverter.JSONTokens
import CurrencyConverter.Handlers
import CurrencyConverter.ServiceSpecs
import CurrencyConverter.DecimalText
import CurrencyConverter.HandlerSpecs
import CurrencyConverter.ProcessRuns
import CurrencyConverter.TransferSteps
import CurrencyConverter.LedgerLaw
import CurrencyConverter.ExchangeRuns
import CurrencyConverter.GroupRuns
import CurrencyConverter.BatchReports
import CurrencyConverter.SeededApp
import CurrencyConverter.ResponseSafety
import CurrencyConverter.AmountField
import CurrencyConverter.Preview
import CurrencyConverter.ExchangeGate
import CurrencyConverter.ScaledCounter
import CurrencyConverter.ActivityIndicator
import CurrencyConverter.LinkedRows
import CurrencyConverter.KeyedWrites
import CurrencyConverter.RateListSteps
import CurrencyConverter.RateListRuns
import CurrencyConverter.RefreshNoOp
import CurrencyConverter.PendingExchange
import CurrencyConverter.Deliveries
import CurrencyConverter.DeliveryOrders
import CurrencyConverter.SequenceDiff
import CurrencyConverter.ObjectStore.IndexSetMerges
import CurrencyConverter.SequenceAlignment
import CurrencyConverter.SequencePatch
import CurrencyConverter.ObjectStore.IndexSetShiftedBy
import CurrencyConverter.ObjectStore.IndexSetCount
import CurrencyConverter.ObjectStore.CollectionChangeBuilder
import CurrencyConverter.ObjectStore.ChangeTracking
import CurrencyConverter.ObjectStore.ChangeMerge
import CurrencyConverter.ObjectStore.ListChanges
import CurrencyConverter.ObjectStore.ChangeDelivery
import CurrencyConverter.ObjectStore.TableChanges
import CurrencyConverter.ObjectStore.TableRuns
import CurrencyConverter.ObjectStore.LongestMatches
import CurrencyConverter.ObjectStore.CalculatedChanges
import CurrencyConverter.ObjectStore.TableOrderChanges
import CurrencyConverter.ObjectStore.CollectionNotifier
import CurrencyConverter.ObjectStore.ResultsNotifier
