/-!
Outcomes: how a computation that may fail has succeeded or failed.

A success of a bind, of a map or of a list of computations is taken apart into the successes
it was made from, and a failure of a bind is traced to the computation that failed.
-/

namespace Phrasebook.Outcome

variable {ε α β : Type}

theorem bind_eq_ok {x : Except ε α} {g : α → Except ε β} {b : β} (h : (x >>= g) = .ok b) :
    ∃ a, x = .ok a ∧ g a = .ok b := by
  cases x with
  | error e => cases h
  | ok a => exact ⟨a, rfl, h⟩

theorem bind_eq_error {x : Except ε α} {g : α → Except ε β} {e : ε} (h : (x >>= g) = .error e) :
    x = .error e ∨ ∃ a, x = .ok a ∧ g a = .error e := by
  cases x with
  | error e' =>
    cases h
    exact .inl rfl
  | ok a => exact .inr ⟨a, rfl, h⟩

theorem exists_of_isOk {x : Except ε α} (h : x.isOk = true) : ∃ a, x = .ok a := by
  cases x with
  | error e => cases h
  | ok a => exact ⟨a, rfl⟩

theorem eq_ok_of_toOption {x : Except ε α} {a : α} (h : x.toOption = some a) : x = .ok a := by
  cases x with
  | error e => cases h
  | ok a' => exact congrArg Except.ok (Option.some.inj h)

/-- A success that passes a test, found by running the test. -/
theorem exists_of_any (x : Except ε α) (test : α → Bool) (h : x.toOption.any test = true) :
    ∃ a, x = .ok a ∧ test a = true := by
  cases x with
  | error e => cases h
  | ok a => exact ⟨a, rfl, h⟩

theorem map_eq_ok {x : Except ε α} {g : α → β} {b : β} (h : x.map g = .ok b) :
    ∃ a, x = .ok a ∧ g a = b := by
  cases x with
  | error e => cases h
  | ok a => exact ⟨a, rfl, Except.ok.inj h⟩

/-- Each result of a list of computations is the result of one of them. -/
theorem mapM_eq_ok {g : α → Except ε β} {as : List α} {bs : List β} (h : as.mapM g = .ok bs) :
    ∀ b ∈ bs, ∃ a ∈ as, g a = .ok b := by
  induction as generalizing bs with
  | nil =>
    intro b hb
    rw [List.mapM_nil] at h
    cases h
    cases hb
  | cons a as ih =>
    rw [List.mapM_cons] at h
    obtain ⟨first, hfirst, h⟩ := bind_eq_ok h
    obtain ⟨others, hothers, h⟩ := bind_eq_ok h
    cases h
    intro b hb
    rcases List.mem_cons.mp hb with rfl | hb
    · exact ⟨a, List.mem_cons_self, hfirst⟩
    · obtain ⟨a', ha', h'⟩ := ih hothers b hb
      exact ⟨a', List.mem_cons_of_mem _ ha', h'⟩

/-- Each of a list of results that are all there is the result of one thing. -/
theorem mapM_eq_some {g : α → Option β} {as : List α} {bs : List β} (h : as.mapM g = some bs) :
    ∀ b ∈ bs, ∃ a ∈ as, g a = some b := by
  induction as generalizing bs with
  | nil =>
    rw [List.mapM_nil] at h
    cases h
    exact fun b hb => (List.not_mem_nil hb).elim
  | cons a as ih =>
    rw [List.mapM_cons] at h
    obtain ⟨first, hfirst, h⟩ := Option.bind_eq_some_iff.mp h
    obtain ⟨others, hothers, h⟩ := Option.bind_eq_some_iff.mp h
    cases h
    refine List.forall_mem_cons.mpr ⟨⟨a, List.mem_cons_self, hfirst⟩, fun b hb => ?_⟩
    obtain ⟨a', ha', h'⟩ := ih hothers b hb
    exact ⟨a', List.mem_cons_of_mem _ ha', h'⟩

/-- A list of computations gives as many results. -/
theorem length_of_mapM_eq_ok {g : α → Except ε β} {as : List α} {bs : List β}
    (h : as.mapM g = .ok bs) : bs.length = as.length := by
  induction as generalizing bs with
  | nil =>
    rw [List.mapM_nil] at h
    cases h
    rfl
  | cons a as ih =>
    rw [List.mapM_cons] at h
    obtain ⟨first, hfirst, h⟩ := bind_eq_ok h
    obtain ⟨others, hothers, h⟩ := bind_eq_ok h
    cases h
    rw [List.length_cons, List.length_cons, ih hothers]

/-- Computations that agree on each thing of a list agree on the list. -/
theorem mapM_congr {g h : α → Except ε β} {as : List α} (hsame : ∀ a ∈ as, g a = h a) :
    as.mapM g = as.mapM h := by
  induction as with
  | nil => rfl
  | cons a as ih =>
    obtain ⟨ha, has⟩ := List.forall_mem_cons.mp hsame
    rw [List.mapM_cons, List.mapM_cons, ha, ih has]

end Phrasebook.Outcome
