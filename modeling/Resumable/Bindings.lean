/-
  Resumable.Bindings
  ──────────────────
  **NAMED THINGS, IN THE ORDER OF THEIR NAMES.**

  One representation for everything that is looked up by name: the entries of a
  dict, the attributes of an object and the globals.  A name occurs once and
  the entries stand in the order of the names, so two collections with equal
  entries are equal lists.

  Main fact: `find?_set` (an entry is found under the name it was given, and
  giving it touches no other name).
-/

namespace Resumable

/-- Entries by name. -/
abbrev Bindings (α : Type) : Type := List (String × α)

namespace Bindings

variable {α : Type}

/-- The entry of a name. -/
def find? (entries : Bindings α) (name : String) : Option α :=
  match entries with
  | [] => none
  | (key, a) :: rest => if key = name then some a else find? rest name

/-- Give a name an entry in place of the one it has; a new name goes before the
first greater one. -/
def set (entries : Bindings α) (name : String) (a : α) : Bindings α :=
  match entries with
  | [] => [(name, a)]
  | (key, b) :: rest =>
      if key = name then (name, a) :: rest
      else if name < key then (name, a) :: (key, b) :: rest
      else (key, b) :: set rest name a

/-- The entries of a list of pairs, the last one of each name. -/
def ofList (pairs : List (String × α)) : Bindings α :=
  pairs.foldl (fun entries pair => entries.set pair.1 pair.2) []

/-! ## What a look-up finds. -/

@[simp] theorem find?_nil (name : String) : find? ([] : Bindings α) name = none := rfl

theorem find?_cons (name key : String) (a : α) (rest : Bindings α) :
    find? ((key, a) :: rest) name = if key = name then some a else find? rest name := rfl

/-- A name has the entry it was given last, and no other name is touched. -/
theorem find?_set (entries : Bindings α) (name other : String) (a : α) :
    find? (set entries name a) other = if name = other then some a else find? entries other := by
  induction entries with
  | nil => rfl
  | cons entry rest ih =>
      obtain ⟨key, b⟩ := entry
      unfold set
      split
      · next h =>
          subst h
          by_cases ho : key = other <;> simp [find?_cons, ho]
      · next h =>
          split
          · rfl
          · rw [find?_cons, find?_cons, ih]
            by_cases hk : key = other
            · have : name ≠ other := fun hn => h (hk.trans hn.symm)
              simp [hk, this]
            · simp [hk]

end Bindings

end Resumable
