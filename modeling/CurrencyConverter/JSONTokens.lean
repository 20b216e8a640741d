import CurrencyConverter.JSONTree

/-! A concrete faithful serialiser: trees written as token lists and read back with a
fuel of one unit for each token. -/
namespace JSONTree

inductive Token where
  | null
  | bool (b : Bool)
  | number (q : ℚ)
  | string (s : NSString)
  | openArray
  | openObject
  | close
  deriving DecidableEq

namespace Token

mutual

def write : JSON → List Token
  | .null => [null]
  | .bool b => [bool b]
  | .number q => [number q]
  | .string s => [string s]
  | .array elements => openArray :: writeElements elements
  | .object fields => openObject :: writeFields fields

def writeElements : List JSON → List Token
  | [] => [close]
  | element :: elements => write element ++ writeElements elements

def writeFields : List (NSString × JSON) → List Token
  | [] => [close]
  | (key, value) :: fields => string key :: (write value ++ writeFields fields)

end

mutual

def read : ℕ → List Token → Option (JSON × List Token)
  | _+1, null :: tokens => some (.null, tokens)
  | _+1, bool b :: tokens => some (.bool b, tokens)
  | _+1, number q :: tokens => some (.number q, tokens)
  | _+1, string s :: tokens => some (.string s, tokens)
  | n+1, openArray :: tokens =>
    (readElements n tokens).map (fun result => (.array result.1, result.2))
  | n+1, openObject :: tokens =>
    (readFields n tokens).map (fun result => (.object result.1, result.2))
  | _, _ => none

def readElements : ℕ → List Token → Option (List JSON × List Token)
  | 0, _ => none
  | _+1, close :: tokens => some ([], tokens)
  | n+1, tokens => do
    let (element, tokens) ← read n tokens
    let (elements, tokens) ← readElements n tokens
    return (element :: elements, tokens)

def readFields : ℕ → List Token → Option (List (NSString × JSON) × List Token)
  | _+1, close :: tokens => some ([], tokens)
  | n+1, string key :: tokens => do
    let (value, tokens) ← read n tokens
    let (fields, tokens) ← readFields n tokens
    return ((key, value) :: fields, tokens)
  | _, _ => none

end

/-- A written value starts with a token that closes nothing. -/
theorem write_head (json : JSON) : ∃ t tokens, write json = t :: tokens ∧ t ≠ close := by
  cases json <;> exact ⟨_, _, by rw [write], by simp⟩

theorem writeElements_length_pos (elements : List JSON) : 0 < (writeElements elements).length := by
  cases elements with
  | nil => simp [writeElements]
  | cons element elements =>
    obtain ⟨t,ts,ht,_⟩ := write_head element
    simp [writeElements, ht]

mutual

/-- Reading what was written gives the tree back and leaves the rest untouched. -/
theorem read_write (json : JSON) (n : ℕ) (tokens : List Token) (hn : (write json).length ≤ n) :
    read n (write json ++ tokens) = some (json, tokens) := by
  match json, n with
  | .array elements, n+1 =>
    have he := readElements_writeElements elements n tokens
      (by simp only [write, List.length_cons] at hn; omega)
    simp only [write, List.cons_append, read, he, Option.map_some]
  | .object fields, n+1 =>
    have hf := readFields_writeFields fields n tokens
      (by simp only [write, List.length_cons] at hn; omega)
    simp only [write, List.cons_append, read, hf, Option.map_some]
  | .null, n+1 => simp only [write, read, List.cons_append, List.nil_append]
  | .bool _, n+1 => simp only [write, read, List.cons_append, List.nil_append]
  | .number _, n+1 => simp only [write, read, List.cons_append, List.nil_append]
  | .string _, n+1 => simp only [write, read, List.cons_append, List.nil_append]
  | json, 0 =>
    obtain ⟨t,ts,ht,_⟩ := write_head json
    simp [ht] at hn

theorem readElements_writeElements (elements : List JSON) (n : ℕ) (tokens : List Token)
    (hn : (writeElements elements).length ≤ n) :
    readElements n (writeElements elements ++ tokens) = some (elements, tokens) := by
  match elements, n with
  | [], 0 => simp [writeElements] at hn
  | [], n+1 => simp only [writeElements, List.cons_append, List.nil_append, readElements]
  | element :: elements, 0 =>
    obtain ⟨t,ts,ht,_⟩ := write_head element
    simp [writeElements, ht] at hn
  | element :: elements, n+1 =>
    -- the head token tells a further element from the closing token
    obtain ⟨t,ts,ht,hc⟩ := write_head element
    have hlen : (write element).length = ts.length+1 := by rw [ht, List.length_cons]
    simp only [writeElements, List.length_append] at hn
    have hl := writeElements_length_pos elements
    have hv := read_write element n (writeElements elements ++ tokens) (by omega)
    have he := readElements_writeElements elements n tokens (by omega)
    rw [writeElements, List.append_assoc, ht, List.cons_append, readElements]
    · rw [← List.cons_append, ← ht, hv]
      simp only [Option.bind_eq_bind, Option.bind_some, he]
      rfl
    · exact fun _ h => hc (List.cons.inj h).1

theorem readFields_writeFields (fields : List (NSString × JSON)) (n : ℕ) (tokens : List Token)
    (hn : (writeFields fields).length ≤ n) :
    readFields n (writeFields fields ++ tokens) = some (fields, tokens) := by
  match fields, n with
  | [], 0 => simp [writeFields] at hn
  | [], n+1 => simp only [writeFields, List.cons_append, List.nil_append, readFields]
  | (key, value) :: fields, 0 => simp [writeFields] at hn
  | (key, value) :: fields, n+1 =>
    simp only [writeFields, List.length_cons, List.length_append] at hn
    have hv := read_write value n (writeFields fields ++ tokens) (by omega)
    have hf := readFields_writeFields fields n tokens (by omega)
    simp only [writeFields, List.cons_append, List.append_assoc, readFields, hv, hf,
      Option.bind_eq_bind, Option.bind_some]
    rfl

end

instance : JSONSerialization (List Token) where
  decEq := inferInstance
  encode := write
  decode tokens := (read tokens.length tokens).map Prod.fst
  decode_encode json _ := by
    have h := read_write json (write json).length [] le_rfl
    rw [List.append_nil] at h
    rw [h, Option.map_some]

end Token

end JSONTree
