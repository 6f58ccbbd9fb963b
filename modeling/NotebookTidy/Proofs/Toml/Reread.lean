import NotebookTidy.Proofs.Config.Order
import NotebookTidy.Proofs.Toml.Scalars

/-! What a reader that goes so many levels deep makes of a value that was written on one line. It is
the value itself exactly if the value is no deeper and no table inside is taken for a moment. -/
namespace NotebookTidy.Config
open Toml (momentKey standaloneMoment?)

mutual
/-- No float, and no offset of more than a day. -/
def Value.Plain : Value → Prop
  | .array vs => vs.Plain
  | .table t => t.Plain
  | .datetime d => Toml.Daily d
  | .float _ => False
  | .string _ | .integer _ | .boolean _ => True
def Values.Plain : Values → Prop
  | .nil => True
  | .cons v rest => v.Plain ∧ rest.Plain
def Table.Plain : Table → Prop
  | .nil => True
  | .cons _ v rest => v.Plain ∧ rest.Plain
end

mutual
/-- Levels that a value nests on one line, where a moment is a table too. -/
def Value.levels : Value → Nat
  | .array vs => vs.levels + 1
  | .table t => t.levels + 1
  | .datetime _ => 1
  | .string _ | .integer _ | .float _ | .boolean _ => 0
def Values.levels : Values → Nat
  | .nil => 0
  | .cons v rest => max v.levels rest.levels
def Table.levels : Table → Nat
  | .nil => 0
  | .cons _ v rest => max v.levels rest.levels
end

mutual
/-- No table inside has the key of moments as its first one. -/
def Value.untagged : Value → Bool
  | .array vs => vs.untagged
  | .table t => decide (t.keys.head? ≠ some momentKey) && t.untagged
  | .string _ | .integer _ | .float _ | .boolean _ | .datetime _ => true
def Values.untagged : Values → Bool
  | .nil => true
  | .cons v rest => v.untagged && rest.untagged
def Table.untagged : Table → Bool
  | .nil => true
  | .cons _ v rest => v.untagged && rest.untagged
end

/-- What a reader takes a table for. -/
def Table.taken : Table → Option Value
  | .nil => some (.table .nil)
  | .cons k v rest =>
    if k = momentKey then (v.string?.bind standaloneMoment?).map .datetime
    else some (.table (.cons k v rest))

mutual
def Value.reread : Value → Nat → Option Value
  | .array vs, depth + 1 => (vs.reread depth).map .array
  | .table t, depth + 1 => (t.reread depth).bind Table.taken
  | .datetime d, _ + 1 => some (.datetime d)
  | .array _, 0 | .table _, 0 | .datetime _, 0 => none
  | .string s, _ => some (.string s)
  | .integer n, _ => some (.integer n)
  | .float x, _ => some (.float x)
  | .boolean b, _ => some (.boolean b)
def Values.reread : Values → Nat → Option Values
  | .nil, _ => some .nil
  | .cons v rest, depth => (v.reread depth).bind fun w => (rest.reread depth).map (.cons w)
def Table.reread : Table → Nat → Option Table
  | .nil, _ => some .nil
  | .cons k v rest, depth => (v.reread depth).bind fun w => (rest.reread depth).map (.cons k w)
end

theorem rereadKeys {t u : Table} {depth : Nat} (reread : t.reread depth = some u) :
    u.keys = t.keys := by
  match t with
  | .nil =>
    cases reread
    rfl
  | .cons k v rest =>
    rw [Table.reread, Option.bind_eq_some_iff] at reread
    obtain ⟨w, -, others⟩ := reread
    obtain ⟨tail, inner, rfl⟩ := Option.map_eq_some_iff.mp others
    exact congrArg (List.cons k) (rereadKeys inner)

theorem rereadSorted {t u : Table} {depth : Nat} (reread : t.reread depth = some u)
    (sorted : t.Sorted) : u.Sorted := by
  have same := rereadKeys reread
  rw [Table.keys, Table.keys] at same
  rwa [Table.Sorted, Keyed.Sorted, same]

theorem takenIff {t u : Table} :
    u.taken = some (.table t) ↔ u = t ∧ t.keys.head? ≠ some momentKey := by
  cases u with
  | nil =>
    constructor
    · rintro ⟨⟩
      exact ⟨rfl, nofun⟩
    · rintro ⟨rfl, -⟩
      rfl
  | cons k v rest =>
    have head : (Table.cons k v rest).keys.head? = some k := rfl
    rw [Table.taken]
    split
    · rename_i marker
      constructor
      · intro taken
        obtain ⟨_, -, other⟩ := Option.map_eq_some_iff.mp taken
        cases other
      · rintro ⟨rfl, other⟩
        exact absurd (head.trans (congrArg some marker)) other
    · rename_i other
      constructor
      · rintro ⟨⟩
        exact ⟨rfl, fun same => other (Option.some.inj (head.symm.trans same))⟩
      · rintro ⟨rfl, -⟩
        rfl

/-- A pair is kept if both its parts are, in a table as in an array. -/
theorem bothKept {α β γ : Type} {make : α → β → γ} {a : α} {b : β} {first : Option α}
    {others : Option β} {m n depth : Nat} {p q : Bool}
    (injective : ∀ {x y}, make x y = make a b ↔ x = a ∧ y = b)
    (head : first = some a ↔ m ≤ depth ∧ p = true)
    (tail : others = some b ↔ n ≤ depth ∧ q = true) :
    (first.bind fun x => others.map (make x)) = some (make a b) ↔
      max m n ≤ depth ∧ (p && q) = true := by
  have whole : (first.bind fun x => others.map (make x)) = some (make a b) ↔
      first = some a ∧ others = some b := by
    cases first <;> cases others <;> simp [injective]
  rw [whole, head, tail, max_le_iff, Bool.and_eq_true, and_and_and_comm]

mutual
theorem valueKept : (v : Value) → (depth : Nat) →
    (v.reread depth = some v ↔ v.levels ≤ depth ∧ v.untagged = true)
  | .array vs, depth + 1 => by
    rw [Value.reread, Value.levels, Value.untagged, Nat.add_le_add_iff_right,
      ← valuesKept vs depth]
    simp
  | .table t, depth + 1 => by
    rw [Value.reread, Value.levels, Value.untagged, Nat.add_le_add_iff_right, Bool.and_eq_true,
      decide_eq_true_eq, and_left_comm, ← tableKept t depth, Option.bind_eq_some_iff]
    constructor
    · rintro ⟨u, kept, taken⟩
      obtain ⟨rfl, other⟩ := takenIff.mp taken
      exact ⟨other, kept⟩
    · rintro ⟨other, kept⟩
      exact ⟨t, kept, takenIff.mpr ⟨rfl, other⟩⟩
  | .array _, 0 | .table _, 0 | .datetime _, 0 | .datetime _, _ + 1
  | .string _, _ | .integer _, _ | .float _, _ | .boolean _, _ => by
    simp [Value.reread, Value.levels, Value.untagged]
theorem valuesKept : (vs : Values) → (depth : Nat) →
    (vs.reread depth = some vs ↔ vs.levels ≤ depth ∧ vs.untagged = true)
  | .nil, depth => by simp [Values.reread, Values.levels, Values.untagged]
  | .cons v rest, depth => by
    rw [Values.reread, Values.levels, Values.untagged]
    exact bothKept (by simp) (valueKept v depth) (valuesKept rest depth)
theorem tableKept : (t : Table) → (depth : Nat) →
    (t.reread depth = some t ↔ t.levels ≤ depth ∧ t.untagged = true)
  | .nil, depth => by simp [Table.reread, Table.levels, Table.untagged]
  | .cons k v rest, depth => by
    rw [Table.reread, Table.levels, Table.untagged]
    exact bothKept (by simp) (valueKept v depth) (tableKept rest depth)
end

end NotebookTidy.Config
