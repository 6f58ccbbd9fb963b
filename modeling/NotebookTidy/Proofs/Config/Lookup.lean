import NotebookTidy.Config.Merge

/-! Tables told by what stands at a key or at a path of keys. Nothing here asks for entries in
order: each operation is known by its look-ups alone. -/
namespace NotebookTidy.Config

theorem getInsert (key : String) (value : Value) (k : String) : (t : Table) →
    (t.insert key value).get? k = if key = k then some value else t.get? k
  | .nil => by simp only [Table.insert, Table.get?]
  | .cons first v rest => by
    have tail := getInsert key value k rest
    simp only [Table.insert]
    split
    · simp only [Table.get?]
    · split
      · rename_i same
        subst same
        simp only [Table.get?]
        split <;> rfl
      · rename_i other
        simp only [Table.get?, tail]
        split
        · rename_i here
          rw [if_neg fun same => other (here.trans same.symm)]
        · rfl

theorem getErase (key k : String) : (t : Table) →
    (t.erase key).get? k = if key = k then none else t.get? k
  | .nil => by simp [Table.erase, Table.get?]
  | .cons first v rest => by
    have tail := getErase key k rest
    simp only [Table.erase]
    split
    · rename_i same
      subst same
      rw [tail]
      simp only [Table.get?]
      split <;> rfl
    · rename_i other
      simp only [Table.get?, tail]
      split
      · rename_i here
        rw [if_neg fun same => other (here.trans same.symm)]
      · rfl

theorem getOver (base : Table) (k : String) : (t : Table) →
    (t.over base).get? k =
      match t.get? k with
      | some v => some (v.over (base.get? k))
      | none => base.get? k
  | .nil => by simp only [Table.over, Table.get?]
  | .cons first v rest => by
    have tail := getOver base k rest
    simp only [Table.over, getInsert, Table.get?]
    split
    · rename_i same
      rw [same]
    · exact tail

theorem overSingle {v : Value} (single : v.isTable = false) (below : Option Value) :
    v.over below = v := by
  cases v with
  | table t => cases single
  | _ => simp only [Value.over]

theorem overKind (v : Value) (below : Option Value) : (v.over below).isTable = v.isTable := by
  cases kind : v.isTable with
  | false => rw [overSingle kind, kind]
  | true =>
    cases v with
    | table t =>
      simp only [Value.over]
      split <;> rfl
    | _ => cases kind

theorem isTableIff {v : Value} : v.isTable = true ↔ ∃ t, v = .table t := by
  cases v <;> simp [Value.isTable]

def Value.at? (v : Value) : List String → Option Value
  | [] => some v
  | key :: rest => (v.table?.bind (·.get? key)).bind (·.at? rest)

/-- What stands at a path, if it is not a table. -/
def Value.leaf? (v : Value) (path : List String) : Option Value :=
  (v.at? path).filter fun x => !x.isTable

def Table.at? (t : Table) (path : List String) : Option Value := (Value.table t).at? path

def Table.leaf? (t : Table) (path : List String) : Option Value := (Value.table t).leaf? path

theorem atCons (t : Table) (key : String) (rest : List String) :
    (Value.table t).at? (key :: rest) = (t.get? key).bind (·.at? rest) := rfl

theorem leafCons (t : Table) (key : String) (rest : List String) :
    (Value.table t).leaf? (key :: rest) = (t.get? key).bind (·.leaf? rest) := by
  rw [Value.leaf?, atCons]
  cases t.get? key <;> rfl

theorem atSingle {v : Value} (single : v.isTable = false) (key : String) (rest : List String) :
    v.at? (key :: rest) = none := by
  cases v with
  | table t => cases single
  | _ => rfl

theorem leafSingle {v : Value} (single : v.isTable = false) (key : String) (rest : List String) :
    v.leaf? (key :: rest) = none := by
  rw [Value.leaf?, atSingle single]
  rfl

end NotebookTidy.Config
