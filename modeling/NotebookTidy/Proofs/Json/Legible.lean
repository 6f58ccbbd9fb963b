import NotebookTidy.Json.Value
import NotebookTidy.Proofs.Keyed

/-! JSON values as a reader gives them: members in order, so many levels and no more, and numbers of
the kind that is asked for. -/
namespace NotebookTidy.Json

/-! Members -/

namespace Members

theorem toListInsert (name : String) (value : Value) (ms : Members) :
    (ms.insert name value).toList = Keyed.insert name value ms.toList := by
  match ms with
  | .nil => rfl
  | .cons k v rest =>
    simp only [insert, toList, Keyed.insert]
    split
    · rfl
    · split
      · rfl
      · rw [toList, toListInsert name value rest]

theorem getToList (ms : Members) (name : String) : ms.get? name = ms.toList.lookup name := by
  match ms with
  | .nil => rfl
  | .cons k v rest =>
    rw [get?, toList]
    split
    · rename_i same
      rw [same, Keyed.lookupHead]
    · rename_i other
      rw [Keyed.lookupTail (Ne.symm other), getToList rest name]

theorem getMem {ms : Members} {name : String} {v : Value} (found : ms.get? name = some v) :
    (name, v) ∈ ms.toList := by
  rw [getToList, List.lookup_eq_some_iff] at found
  obtain ⟨before, after, whole, -⟩ := found
  rw [whole]
  exact List.mem_append_right _ List.mem_cons_self

theorem toListInjective : (a b : Members) → a.toList = b.toList → a = b
  | .nil, .nil, _ => rfl
  | .cons k v rest, .cons k' v' rest', same => by
    simp only [toList, List.cons.injEq, Prod.mk.injEq] at same
    obtain ⟨⟨rfl, rfl⟩, tails⟩ := same
    rw [toListInjective rest rest' tails]

theorem getInsert (name key : String) (value : Value) (ms : Members) :
    (ms.insert name value).get? key = if key = name then some value else ms.get? key := by
  rw [getToList, getToList, toListInsert, Keyed.lookupInsert]

theorem toListOfList (members : List (String × Value)) (above : Members) :
    (members.foldl (fun ms m => ms.insert m.1 m.2) above).toList =
      members.foldl (fun done m => Keyed.insert m.1 m.2 done) above.toList := by
  induction members generalizing above with
  | nil => rfl
  | cons m rest ih => rw [List.foldl_cons, List.foldl_cons, ih, toListInsert]

theorem ofListSorted {ms : Members} (sorted : Keyed.Sorted ms.toList) :
    ofList ms.toList = ms := by
  refine toListInjective _ _ ?_
  rw [ofList, toListOfList]
  exact Keyed.insertAll sorted

theorem ofListPerm {members : List (String × Value)} (apart : (members.map Prod.fst).Nodup) :
    (ofList members).toList.Perm members := by
  rw [ofList, toListOfList]
  exact Keyed.insertApart apart

end Members

theorem itemsOfList (vs : Items) : .ofList vs.toList = vs := by
  match vs with
  | .nil => rfl
  | .cons v rest => rw [Items.toList, Items.ofList, itemsOfList rest]

/-! Legible values -/

def Number.Integral : Number → Prop
  | .integer n => -(Nat.pow 2 63 : Int) ≤ n ∧ n < (Nat.pow 2 64 : Int)
  | .float x => x = .zero true

/-- Every number that a reader gives. -/
def Number.Held : Number → Prop
  | .integer n => -(Nat.pow 2 63 : Int) ≤ n ∧ n < (Nat.pow 2 64 : Int)
  | .float x => x.magnitude < Decimal.infinity

theorem integralHeld {n : Number} (integral : n.Integral) : n.Held := by
  cases n with
  | integer n => exact integral
  | float x =>
    rw [Number.Held, show x = .zero true from integral]
    decide

mutual
def Value.numbers : Value → List Number
  | .number n => [n]
  | .array vs => vs.numbers
  | .object ms => ms.numbers
  | .null | .bool _ | .string _ => []
def Items.numbers : Items → List Number
  | .nil => []
  | .cons v rest => v.numbers ++ rest.numbers
def Members.numbers : Members → List Number
  | .nil => []
  | .cons _ v rest => v.numbers ++ rest.numbers
end

mutual
/-- What a document can hold in at most `depth` levels. -/
def Value.Legible (fits : Number → Prop) (depth : Nat) : Value → Prop
  | .null | .bool _ | .string _ => True
  | .number n => fits n
  | .array vs => 0 < depth ∧ vs.Legible fits (depth - 1)
  | .object ms => 0 < depth ∧ Keyed.Sorted ms.toList ∧ ms.Legible fits (depth - 1)
def Items.Legible (fits : Number → Prop) (depth : Nat) : Items → Prop
  | .nil => True
  | .cons v rest => v.Legible fits depth ∧ rest.Legible fits depth
def Members.Legible (fits : Number → Prop) (depth : Nat) : Members → Prop
  | .nil => True
  | .cons _ v rest => v.Legible fits depth ∧ rest.Legible fits depth
end

variable {fits : Number → Prop}

mutual
theorem legibleMono {fits' : Number → Prop} {depth : Nat} : (v : Value) →
    (∀ n ∈ v.numbers, fits n → fits' n) → v.Legible fits depth → v.Legible fits' depth
  | .null, _, _ | .bool _, _, _ | .string _, _, _ => trivial
  | .number n, weaker, legible => weaker n (List.mem_singleton_self n) legible
  | .array vs, weaker, ⟨deep, legible⟩ => ⟨deep, itemsMono vs weaker legible⟩
  | .object ms, weaker, ⟨deep, sorted, legible⟩ => ⟨deep, sorted, membersMono ms weaker legible⟩
theorem itemsMono {fits' : Number → Prop} {depth : Nat} : (vs : Items) →
    (∀ n ∈ vs.numbers, fits n → fits' n) → vs.Legible fits depth → vs.Legible fits' depth
  | .nil, _, _ => trivial
  | .cons v rest, weaker, ⟨first, others⟩ =>
    ⟨legibleMono v (fun n mem => weaker n (List.mem_append_left _ mem)) first,
      itemsMono rest (fun n mem => weaker n (List.mem_append_right _ mem)) others⟩
theorem membersMono {fits' : Number → Prop} {depth : Nat} : (ms : Members) →
    (∀ n ∈ ms.numbers, fits n → fits' n) → ms.Legible fits depth → ms.Legible fits' depth
  | .nil, _, _ => trivial
  | .cons _ v rest, weaker, ⟨first, others⟩ =>
    ⟨legibleMono v (fun n mem => weaker n (List.mem_append_left _ mem)) first,
      membersMono rest (fun n mem => weaker n (List.mem_append_right _ mem)) others⟩
end

theorem itemsLegible (depth : Nat) (vs : Items) :
    vs.Legible fits depth ↔ ∀ v ∈ vs.toList, v.Legible fits depth := by
  match vs with
  | .nil => simp [Items.Legible, Items.toList]
  | .cons v rest => rw [Items.Legible, Items.toList, List.forall_mem_cons, itemsLegible depth rest]

theorem membersLegible (depth : Nat) (ms : Members) :
    ms.Legible fits depth ↔ ∀ m ∈ ms.toList, m.2.Legible fits depth := by
  match ms with
  | .nil => simp [Members.Legible, Members.toList]
  | .cons k v rest =>
    rw [Members.Legible, Members.toList, List.forall_mem_cons, membersLegible depth rest]

theorem insertLegible {depth : Nat} {name : String} {v : Value} {ms : Members}
    (legible : (Value.object ms).Legible fits depth) (value : v.Legible fits (depth - 1)) :
    (Value.object (ms.insert name v)).Legible fits depth := by
  obtain ⟨deep, sorted, all⟩ := legible
  rw [membersLegible] at all
  rw [Value.Legible, membersLegible, Members.toListInsert]
  refine ⟨deep, Keyed.insertSorted _ _ sorted, fun m mem => ?_⟩
  rcases Keyed.memInserted mem with rfl | old
  · exact value
  · exact all m old

theorem getLegible {depth : Nat} {name : String} {v : Value} {ms : Members}
    (legible : (Value.object ms).Legible fits depth) (found : ms.get? name = some v) :
    v.Legible fits (depth - 1) := by
  obtain ⟨-, -, all⟩ := legible
  exact (membersLegible _ ms).mp all (name, v) (Members.getMem found)

/-! What a reader gives -/

theorem ofListKept {p : Value → Prop} {members : List (String × Value)}
    (all : ∀ m ∈ members, p m.2) : Keyed.Sorted (Members.ofList members).toList ∧
      ∀ m ∈ (Members.ofList members).toList, p m.2 := by
  have keep (above : List (String × Value)) (sorted : Keyed.Sorted above)
      (held : ∀ m ∈ above, p m.2) :
      Keyed.Sorted (members.foldl (fun done m => Keyed.insert m.1 m.2 done) above) ∧
        ∀ m ∈ members.foldl (fun done m => Keyed.insert m.1 m.2 done) above, p m.2 := by
    induction members generalizing above with
    | nil => exact ⟨sorted, held⟩
    | cons first rest ih =>
      obtain ⟨here, others⟩ := List.forall_mem_cons.mp all
      refine ih others _ (Keyed.insertSorted _ _ sorted) fun m mem => ?_
      rcases Keyed.memInserted mem with rfl | old
      · exact here
      · exact held m old
  rw [Members.ofList, Members.toListOfList]
  exact keep [] Keyed.sortedNil (by simp)

/-- Every number that a numeral can have as its value fits. -/
def Covers (fits : Number → Prop) : Prop :=
  ∀ (numeral : Numeral) n, numeral.number? = some n → fits n

mutual
theorem valueLegible (covers : Covers fits) {depth : Nat} : (n : Node) → {v : Value} →
    n.value? depth = some v → v.Legible fits depth
  | .null, _, read => by cases read; trivial
  | .bool _, _, read => by cases read; trivial
  | .number n, v, read => by
    obtain ⟨number, value, rfl⟩ := Option.map_eq_some_iff.mp read
    exact covers n number value
  | .string s, v, read => by
    obtain ⟨text, -, rfl⟩ := Option.map_eq_some_iff.mp read
    trivial
  | .array ns, v, read => by
    rw [Node.value?] at read
    split at read
    · cases read
    · rename_i deep
      obtain ⟨vs, inner, rfl⟩ := Option.map_eq_some_iff.mp read
      refine ⟨Nat.pos_of_ne_zero deep, (itemsLegible _ _).mpr fun v mem => ?_⟩
      rw [Items.toListOfList] at mem
      exact valuesLegible covers ns inner v mem
  | .object fs, v, read => by
    rw [Node.value?] at read
    split at read
    · cases read
    · rename_i deep
      obtain ⟨ms, inner, rfl⟩ := Option.map_eq_some_iff.mp read
      obtain ⟨sorted, all⟩ := ofListKept (fieldsLegible covers fs inner)
      exact ⟨Nat.pos_of_ne_zero deep, sorted, (membersLegible _ _).mpr all⟩
theorem valuesLegible (covers : Covers fits) {depth : Nat} : (ns : Nodes) → {vs : List Value} →
    ns.values? depth = some vs → ∀ v ∈ vs, v.Legible fits depth
  | .nil, _, read => by cases read; simp
  | .cons n rest, vs, read => by
    simp only [Nodes.values?, Option.bind_eq_bind, Option.bind_eq_some_iff] at read
    obtain ⟨v, first, others, later, same⟩ := read
    cases same
    exact List.forall_mem_cons.mpr ⟨valueLegible covers n first, valuesLegible covers rest later⟩
theorem fieldsLegible (covers : Covers fits) {depth : Nat} : (fs : Fields) →
    {ms : List (String × Value)} → fs.members? depth = some ms → ∀ m ∈ ms, m.2.Legible fits depth
  | .nil, _, read => by cases read; simp
  | .cons name n rest, ms, read => by
    simp only [Fields.members?, Option.bind_eq_bind, Option.bind_eq_some_iff] at read
    obtain ⟨k, -, v, first, others, later, same⟩ := read
    cases same
    exact List.forall_mem_cons.mpr ⟨valueLegible covers n first, fieldsLegible covers rest later⟩
end

theorem documentLegible (covers : Covers fits) {text : String} {v : Value}
    (read : read? text = some v) :
    v.Legible fits depthLimit := by
  obtain ⟨n, -, value⟩ := Option.bind_eq_some_iff.mp read
  exact valueLegible covers n value

theorem readLegible {text : String} {v : Value} (read : read? text = some v)
    (all : ∀ n ∈ v.numbers, fits n) : v.Legible fits depthLimit :=
  legibleMono v (fun n mem _ => all n mem) (documentLegible (fun _ _ _ => trivial) read)

end NotebookTidy.Json
