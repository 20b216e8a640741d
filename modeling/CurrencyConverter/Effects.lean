/-! Programs with a state and aborts that keep the state: what holds where a program
ends, computed backwards through its text. -/
namespace Effects

variable {ε σ α β : Type}

/-- From `s` the program ends normally where `ok` holds, or aborts where `abort` holds. -/
def Ends (m : EStateM ε σ α) (s : σ) (ok : α → σ → Prop) (abort : ε → σ → Prop) : Prop :=
  match m.run s with
  | .ok a t => ok a t
  | .error e t => abort e t

variable {s : σ} {ok : α → σ → Prop} {abort : ε → σ → Prop}

@[simp] theorem ends_pure (a : α) : Ends (pure a : EStateM ε σ α) s ok abort ↔ ok a s := Iff.rfl

@[simp] theorem ends_throw (e : ε) :
    Ends (throw e : EStateM ε σ α) s ok abort ↔ abort e s := Iff.rfl

@[simp] theorem ends_get {ok : σ → σ → Prop} :
    Ends (get : EStateM ε σ σ) s ok abort ↔ ok s s := Iff.rfl

@[simp] theorem ends_set {ok : PUnit → σ → Prop} (t : σ) :
    Ends (set t : EStateM ε σ PUnit) s ok abort ↔ ok .unit t := Iff.rfl

@[simp] theorem ends_modify {ok : PUnit → σ → Prop} (f : σ → σ) :
    Ends (modify f : EStateM ε σ PUnit) s ok abort ↔ ok .unit (f s) := Iff.rfl

@[simp] theorem ends_bind (x : EStateM ε σ β) (f : β → EStateM ε σ α) :
    Ends (x >>= f) s ok abort ↔ Ends x s (fun b t => Ends (f b) t ok abort) abort := by
  unfold Ends
  rw [EStateM.run_bind]
  cases x.run s <;> rfl

theorem ends_ite {c : Prop} [Decidable c] (x y : EStateM ε σ α) :
    Ends (if c then x else y) s ok abort ↔
      (c → Ends x s ok abort) ∧ (¬c → Ends y s ok abort) := by
  by_cases h : c
  · simp [h]
  · simp [h]

/-- The consequence rule. -/
theorem Ends.imp {m : EStateM ε σ α} {ok' : α → σ → Prop} {abort' : ε → σ → Prop}
    (h : Ends m s ok abort) (hok : ∀ a t, ok a t → ok' a t)
    (habort : ∀ e t, abort e t → abort' e t) : Ends m s ok' abort' := by
  unfold Ends at h ⊢
  cases hm : m.run s with
  | ok a t =>
    rw [hm] at h
    exact hok a t h
  | error e t =>
    rw [hm] at h
    exact habort e t h

theorem ends_of_run {m : EStateM ε σ α} {a : α} {t : σ} (hm : m.run s = .ok a t) (h : ok a t) :
    Ends m s ok abort := by
  unfold Ends
  rwa [hm]

theorem Ends.of_run_ok {m : EStateM ε σ α} (h : Ends m s ok abort) {a : α} {t : σ}
    (hm : m.run s = .ok a t) : ok a t := by
  unfold Ends at h
  rwa [hm] at h

theorem Ends.of_run_error {m : EStateM ε σ α} (h : Ends m s ok abort) {e : ε} {t : σ}
    (hm : m.run s = .error e t) : abort e t := by
  unfold Ends at h
  rwa [hm] at h

/-- A program that cannot abort ends normally. -/
theorem Ends.exists_ok {m : EStateM ε σ α} (h : Ends m s ok (fun _ _ => False)) :
    ∃ a t, m.run s = .ok a t ∧ ok a t := by
  unfold Ends at h
  cases hm : m.run s with
  | ok a t =>
    rw [hm] at h
    exact ⟨a, t, rfl, h⟩
  | error e t =>
    rw [hm] at h
    exact h.elim

theorem except_bind_ok {x : Except ε α} {f : α → Except ε β} {b : β} (h : (x >>= f) = .ok b) :
    ∃ a, x = .ok a ∧ f a = .ok b := by
  cases x with
  | ok a => exact ⟨a, rfl, h⟩
  | error e => cases h

theorem mem_toOption {x : Except ε α} {a : α} : a ∈ x.toOption ↔ x = .ok a := by
  cases x with
  | ok b => simp [Except.toOption]
  | error e => simp [Except.toOption]

end Effects
