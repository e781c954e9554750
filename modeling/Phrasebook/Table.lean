/-!
Tables: finite maps from names to things, kept in increasing order of the names.

Names are compared by their code points. A table built by `insert` lists each name once and
in order (`sorted_insert`), so two such tables with the same look-ups are the same list.
-/

namespace Phrasebook

/-- A map from names, listed in increasing order of the names. -/
abbrev Table (α : Type) := List (String × α)

namespace Table

variable {α : Type}

/-- Each name comes before every later one. -/
def Sorted (t : Table α) : Prop := t.Pairwise fun a b => a.1 < b.1

def empty : Table α := []

/-- Binds a name, in place of what it was bound to before. -/
def insert : Table α → String → α → Table α
  | [], name, a => [(name, a)]
  | (other, b) :: rest, name, a =>
    if name < other then (name, a) :: (other, b) :: rest
    else if name = other then (name, a) :: rest
    else (other, b) :: insert rest name a

/-- What a name is bound to. -/
def find? (t : Table α) (name : String) : Option α := t.lookup name

def contains (t : Table α) (name : String) : Bool := (t.find? name).isSome

def names (t : Table α) : List String := t.map Prod.fst

/-- Binds the pairs in turn, so that the last binding of a name holds. -/
def insertAll (t : Table α) (pairs : List (String × α)) : Table α :=
  pairs.foldl (fun t p => t.insert p.1 p.2) t

/-- The table of some pairs; the last binding of a name holds. -/
def ofList (pairs : List (String × α)) : Table α := insertAll empty pairs

theorem find?_insert_self (t : Table α) (name : String) (a : α) :
    (t.insert name a).find? name = some a := by
  induction t with
  | nil => simp [insert, find?]
  | cons p t ih =>
    obtain ⟨other, b⟩ := p
    simp only [insert]
    split
    · simp [find?]
    · split
      · simp [find?]
      · next h =>
        have hb : (name == other) = false := by simpa using h
        simpa [find?, List.lookup_cons, hb] using ih

theorem find?_insert_of_ne (t : Table α) {name key : String} (a : α) (h : key ≠ name) :
    (t.insert name a).find? key = t.find? key := by
  have hk : (key == name) = false := by simpa using h
  induction t with
  | nil => simp [insert, find?, List.lookup_cons, hk]
  | cons p t ih =>
    obtain ⟨other, b⟩ := p
    simp only [insert]
    split
    · simp [find?, List.lookup_cons, hk]
    · split
      · next he => simp [find?, List.lookup_cons, hk, ← he]
      · simp only [find?, List.lookup_cons] at ih ⊢
        rw [ih]

theorem mem_insert {t : Table α} {name : String} {a : α} {p : String × α}
    (h : p ∈ t.insert name a) : p = (name, a) ∨ p ∈ t := by
  induction t with
  | nil => simpa [insert] using h
  | cons q t ih =>
    obtain ⟨other, b⟩ := q
    simp only [insert] at h
    split at h
    · simpa using h
    · split at h
      · rcases List.mem_cons.1 h with h | h
        · exact .inl h
        · exact .inr (List.mem_cons_of_mem _ h)
      · rcases List.mem_cons.1 h with h | h
        · exact .inr (h ▸ List.mem_cons_self)
        · exact (ih h).imp_right (List.mem_cons_of_mem _)

/-- Binding a name keeps the order of the names. -/
theorem sorted_insert {t : Table α} (h : t.Sorted) (name : String) (a : α) :
    (t.insert name a).Sorted := by
  induction t with
  | nil => simp [insert, Sorted]
  | cons p t ih =>
    obtain ⟨other, b⟩ := p
    obtain ⟨hp, ht⟩ := List.pairwise_cons.1 h
    simp only [insert]
    split
    · next hlt =>
      refine List.pairwise_cons.2 ⟨?_, h⟩
      intro q hq
      rcases List.mem_cons.1 hq with rfl | hq
      · exact hlt
      · exact String.lt_trans hlt (hp q hq)
    · split
      · next he => exact List.pairwise_cons.2 ⟨fun q hq => by simpa [he] using hp q hq, ht⟩
      · next hlt hne =>
        refine List.pairwise_cons.2 ⟨fun q hq => ?_, ih ht⟩
        rcases mem_insert hq with rfl | hq
        · exact Decidable.byContradiction fun hge =>
            hne (String.le_antisymm (String.not_lt.1 hge) (String.not_lt.1 hlt))
        · exact hp q hq

theorem sorted_insertAll {t : Table α} (h : t.Sorted) (pairs : List (String × α)) :
    (t.insertAll pairs).Sorted := by
  induction pairs generalizing t with
  | nil => exact h
  | cons p pairs ih => exact ih (sorted_insert h p.1 p.2)

end Table

end Phrasebook
