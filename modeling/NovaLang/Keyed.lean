namespace NovaLang.Keyed

/-! # Lists of named entries

Names are unique and keep the order in which they were first set. Two names may
be written differently and yet be the same; the list keeps the first form.
-/

variable {κ α : Type} [BEq κ]

/-- The entry of a name. -/
def get? (entries : List (κ × α)) (name : κ) : Option α :=
  (entries.find? fun e => e.1 == name).map (·.2)

/-- There is an entry of the name. -/
def contains (entries : List (κ × α)) (name : κ) : Bool :=
  entries.any fun e => e.1 == name

/-- The entries with one set: a known name keeps its place, a new one comes last. -/
def set (name : κ) (value : α) : List (κ × α) → List (κ × α)
  | [] => [(name, value)]
  | (k, v) :: rest => if k == name then (k, value) :: rest else (k, v) :: set name value rest

theorem get?_set [EquivBEq κ] (entries : List (κ × α)) (name other : κ) (value : α) :
    get? (set name value entries) other =
      if name == other then some value else get? entries other := by
  induction entries with
  | nil => by_cases h : name == other <;> simp [get?, set, h]
  | cons e rest ih =>
    obtain ⟨k, v⟩ := e
    simp only [get?] at ih
    by_cases hk : k == name
    · have hko : (k == other) = (name == other) := BEq.congr_left hk
      by_cases h : name == other <;> simp [get?, set, hk, hko, h]
    · by_cases h : k == other
      · have hno : (name == other) = false := by
          rw [Bool.eq_false_iff]
          intro hn
          exact hk (BEq.trans h (BEq.symm hn))
        simp [get?, set, hk, h, hno]
      · simp [get?, set, hk, h, ih]

/-- The names, in order. -/
def names (entries : List (κ × α)) : List κ := entries.map (·.1)

theorem names_set (entries : List (κ × α)) (name : κ) (value : α) :
    names (set name value entries) =
      if contains entries name then names entries else names entries ++ [name] := by
  induction entries with
  | nil => simp [names, set, contains]
  | cons e rest ih =>
    obtain ⟨k, v⟩ := e
    simp only [names, contains] at ih
    by_cases hk : k == name
    · simp [names, set, contains, hk]
    · by_cases h : rest.any fun e => e.1 == name <;> simp [names, set, contains, hk, ih, h]

end NovaLang.Keyed
