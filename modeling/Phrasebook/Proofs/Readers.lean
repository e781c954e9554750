import Mathlib.Data.List.TakeWhile
import Phrasebook.Text.Reader

/-!
What readers take and what they give.

`Reader.Yields` says that whatever a reader gives has a property; it goes through binds and through
repetition. Where it is known what the first of two readers takes and gives, `Reader.bind_eq` goes
on with the second.
-/

namespace Phrasebook.Reader

variable {α β : Type} {P : α → Prop} {Q : β → Prop} {r : Reader α} {g : α → Reader β}

/-- Whatever the reader gives has the property. -/
def Yields (r : Reader α) (P : α → Prop) : Prop := ∀ cs a rest, r cs = some (a, rest) → P a

theorem Yields.pure {a : α} (h : P a) : Yields (pure a) P := by
  intro cs a' rest hrun
  cases hrun
  exact h

theorem Yields.bind (hr : Yields r P) (hg : ∀ a, P a → Yields (g a) Q) : Yields (r >>= g) Q := by
  intro cs b rest hrun
  obtain ⟨⟨a, mid⟩, hfirst, hrest⟩ := Option.bind_eq_some_iff.mp hrun
  exact hg a (hr cs a mid hfirst) mid b rest hrest

/-- A bind of which only the last reader matters. -/
theorem Yields.after (hg : ∀ a, Yields (g a) Q) : Yields (r >>= g) Q :=
  Yields.bind (P := fun _ => True) (fun _ _ _ _ => trivial) fun a _ => hg a

theorem yields_fail : Yields fail P := by
  intro cs a rest hrun
  cases hrun

theorem yields_many {step : Reader (Option α)} (h : Yields step fun a? => ∀ a ∈ a?, P a) :
    Yields (many step) fun as => ∀ a ∈ as, P a := by
  intro cs as rest hrun
  fun_induction many step cs generalizing as rest with
  | case1 => cases hrun
  | case2 cs after hstep =>
    cases hrun
    exact fun a ha => (List.not_mem_nil ha).elim
  | case3 cs a after hstep hlt others after' hothers ih =>
    cases hrun
    exact List.forall_mem_cons.mpr ⟨h _ _ _ hstep a rfl, ih _ _ hothers⟩
  | case4 => cases hrun
  | case5 cs a after hstep hlt =>
    cases hrun
    exact List.forall_mem_singleton.mpr (h _ _ _ hstep a rfl)

/-- A reader after a check that it passed. -/
theorem Yields.guard {b : Prop} [Decidable b] {rest : PUnit → Reader β}
    (h : ¬ b → Yields (rest ⟨⟩) Q) : Yields (if b then fail >>= rest else rest ⟨⟩) Q := by
  split
  · exact Yields.bind (P := fun _ => False) yields_fail fun _ h => h.elim
  · next hb => exact h hb

/-! ## What is taken -/

/-- All characters that the reader takes are in a class. -/
def Takes (p : Char → Prop) (r : Reader α) : Prop :=
  ∀ cs a rest, r cs = some (a, rest) → ∃ taken, cs = taken ++ rest ∧ ∀ c ∈ taken, p c

section

variable {p : Char → Prop}

theorem takes_of_rest_eq (h : ∀ cs a rest, r cs = some (a, rest) → rest = cs) : Takes p r :=
  fun cs a rest hrun => ⟨[], (h cs a rest hrun).symm, fun _ hc => (List.not_mem_nil hc).elim⟩

theorem takes_pure (a : α) : Takes p (pure a) := takes_of_rest_eq fun _ _ _ h => by cases h; rfl

theorem takes_fail : Takes p (fail : Reader α) := takes_of_rest_eq fun _ _ _ h => by cases h

theorem takes_peek : Takes p peek := takes_of_rest_eq fun _ _ _ h => by cases h; rfl

theorem Takes.bind (hr : Takes p r) (hg : ∀ a, Takes p (g a)) : Takes p (r >>= g) := by
  intro cs b rest hrun
  obtain ⟨⟨a, mid⟩, hfirst, hrest⟩ := Option.bind_eq_some_iff.mp hrun
  obtain ⟨taken, hcs, htaken⟩ := hr cs a mid hfirst
  obtain ⟨taken', hmid, htaken'⟩ := hg a mid b rest hrest
  refine ⟨taken ++ taken', ?_, List.forall_mem_append.mpr ⟨htaken, htaken'⟩⟩
  rw [hcs, List.append_assoc]
  exact congrArg _ hmid

theorem satisfy_cons (q : Char → Bool) (c : Char) (cs : List Char) :
    satisfy q (c :: cs) = if q c then some (c, cs) else none := by
  show (if q c then pure c else fail : Reader Char) cs = _
  split <;> rfl

theorem takes_satisfy {q : Char → Bool} (h : ∀ c, q c = true → p c) : Takes p (satisfy q) := by
  intro cs a rest hrun
  cases cs with
  | nil => cases hrun
  | cons c cs =>
    rw [satisfy_cons] at hrun
    split at hrun
    · next hc =>
      cases hrun
      exact ⟨[a], rfl, List.forall_mem_singleton.mpr (h a hc)⟩
    · cases hrun

/-- A reader after a check that it passed. -/
theorem Takes.guard {b : Prop} [Decidable b] {rest : PUnit → Reader β} (h : Takes p (rest ⟨⟩)) :
    Takes p (if b then fail >>= rest else rest ⟨⟩) := by
  split
  · intro cs a rest hrun
    cases hrun
  · exact h

theorem takes_char {c : Char} (h : p c) : Takes p (char c) :=
  (takes_satisfy fun _ hd => eq_of_beq hd ▸ h).bind fun _ => takes_pure _

theorem takes_takeWhile {q : Char → Bool} (h : ∀ c, q c = true → p c) : Takes p (takeWhile q) := by
  intro cs a rest hrun
  cases hrun
  exact ⟨_, List.takeWhile_append_dropWhile.symm, fun c hc => h c (List.mem_takeWhile_imp hc)⟩

theorem takes_digits (h : ∀ c : Char, c.isDigit = true → p c) (least most : Nat) :
    Takes p (digits least most) := by
  intro cs a rest hrun
  have htaken : (cs.take most).takeWhile Char.isDigit <+: cs :=
    (List.takeWhile_prefix _).trans (List.take_prefix most cs)
  simp only [digits] at hrun
  split at hrun
  · cases hrun
  · cases hrun
    refine ⟨_, (List.prefix_iff_eq_append.mp htaken).symm, fun c hc => ?_⟩
    exact h c (List.mem_takeWhile_imp hc)

end

/-! ## Known results -/

variable {cs rest : List Char}

theorem bind_eq {a : α} (h : r cs = some (a, rest)) : (r >>= g) cs = g a rest := by
  change (r cs >>= fun x => g x.1 x.2) = _
  rw [h]
  rfl

theorem bind_eq_none (h : r cs = none) : (r >>= g) cs = none := by
  change (r cs >>= fun x => g x.1 x.2) = _
  rw [h]
  rfl

theorem char_cons (c : Char) : char c (c :: rest) = some ((), rest) :=
  bind_eq (by rw [satisfy_cons, if_pos (beq_self_eq_true c)])

/-- As many digits as are asked for at most. -/
theorem digits_append {ds : List Char} (h : ∀ c ∈ ds, c.isDigit = true) {least most : Nat}
    (hmost : ds.length = most) (hleast : least ≤ most) :
    digits least most (ds ++ rest) = some (ds, rest) := by
  subst hmost
  have hall : ds.takeWhile Char.isDigit = ds := List.takeWhile_eq_self_iff.mpr h
  simp [digits, hall, Nat.not_lt.mpr hleast]

theorem digits_cons_eq_none {c : Char} (h : c.isDigit = false) {least : Nat} (hleast : 0 < least)
    (most : Nat) : digits least most (c :: rest) = none := by
  cases most <;> simp [digits, h, hleast]

theorem run?_eq_some_iff {a : α} : r.run? cs = some a ↔ r cs = some (a, []) := by
  unfold run?
  cases h : r cs with
  | none =>
    rw [bind_eq_none h]
    simp
  | some x =>
    obtain ⟨a', rest⟩ := x
    rw [bind_eq h]
    cases rest with
    | nil =>
      have hend : (do atEnd; return a' : Reader α) [] = some (a', []) := rfl
      simp [hend]
    | cons c rest =>
      have hend : (do atEnd; return a' : Reader α) (c :: rest) = none := rfl
      simp [hend]

/-- A reader of a whole text has taken all of its characters. -/
theorem Takes.forall_mem {p : Char → Prop} {a : α} (h : Takes p r) (hrun : r.run? cs = some a) :
    ∀ c ∈ cs, p c := by
  obtain ⟨taken, hcs, htaken⟩ := h cs a [] (run?_eq_some_iff.mp hrun)
  rw [hcs, List.append_nil]
  exact htaken

end Phrasebook.Reader
