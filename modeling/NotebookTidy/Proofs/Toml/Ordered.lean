import NotebookTidy.Proofs.Config.Order
import NotebookTidy.Toml.Reader

/-! A document that is read gives a tree in order: its tables are made entry by entry with
`insert`, at every depth, in arrays too. -/
namespace NotebookTidy.Toml
open Config

mutual
def Item.Ordered : Item → Prop
  | .value v => v.Ordered
  | .table _ entries => entries.Ordered
  | .rows finished current => (∀ v ∈ finished, v.Ordered) ∧ current.Ordered
def Entries.Ordered : Entries → Prop
  | .nil => True
  | .cons _ item rest => item.Ordered ∧ rest.Ordered
end

theorem nilOrdered : Entries.nil.Ordered := by
  rw [Entries.Ordered]
  trivial

theorem singleOrdered {v : Value} (single : v.isTable = false) (plain : v.array? = none) :
    v.Ordered := by
  cases v with
  | table t => cases single
  | array vs => cases plain
  | _ => simp only [Value.Ordered]

theorem valuesOrdered (vs : List Value) : (Values.ofList vs).Ordered ↔ ∀ v ∈ vs, v.Ordered := by
  induction vs with
  | nil => simp [Values.ofList, Values.Ordered]
  | cons v rest ih => rw [Values.ofList, Values.Ordered, ih, List.forall_mem_cons]

mutual
theorem itemValueOrdered : (item : Item) → {v : Value} → item.Ordered →
    item.value? = some v → v.Ordered
  | .value w, v, ordered, found => by
    rw [Item.value?] at found
    cases found
    rwa [Item.Ordered] at ordered
  | .table origin entries, v, ordered, found => by
    rw [Item.value?] at found
    rw [Item.Ordered] at ordered
    exact entriesValueOrdered entries ordered found
  | .rows finished current, v, ordered, found => by
    rw [Item.value?] at found
    rw [Item.Ordered] at ordered
    obtain ⟨row, read, same⟩ := Option.map_eq_some_iff.mp found
    cases same
    rw [Value.Ordered, valuesOrdered, List.forall_mem_append, List.forall_mem_singleton]
    exact ⟨ordered.1, entriesValueOrdered current ordered.2 read⟩
theorem entriesValueOrdered : (entries : Entries) → {v : Value} → entries.Ordered →
    entries.value? = some v → v.Ordered
  | .nil, v, _, found => by
    rw [Entries.value?] at found
    cases found
    rw [Value.Ordered, Table.empty, Table.Ordered]
    trivial
  | .cons key item rest, v, ordered, found => by
    rw [Entries.Ordered] at ordered
    simp only [Entries.value?, Option.bind_eq_bind, Option.bind_eq_some_iff] at found
    obtain ⟨w, read, found⟩ := found
    split at found
    · obtain ⟨moment, -, same⟩ := Option.map_eq_some_iff.mp found
      cases same
      trivial
    · obtain ⟨t, others, same⟩ := Option.bind_eq_some_iff.mp found
      cases same
      rw [Value.Ordered]
      exact insertOrdered (entriesTableOrdered rest ordered.2 others)
        (itemValueOrdered item ordered.1 read)
theorem entriesTableOrdered : (entries : Entries) → {t : Table} → entries.Ordered →
    entries.table? = some t → t.Ordered
  | .nil, t, _, found => by
    rw [Entries.table?] at found
    cases found
    rw [Table.empty, Table.Ordered]
    trivial
  | .cons key item rest, t, ordered, found => by
    rw [Entries.Ordered] at ordered
    simp only [Entries.table?, Option.bind_eq_bind, Option.bind_eq_some_iff] at found
    obtain ⟨w, read, rows, others, same⟩ := found
    cases same
    exact insertOrdered (entriesTableOrdered rest ordered.2 others)
      (itemValueOrdered item ordered.1 read)
end

/-! Adding to a table -/

theorem updateOrdered {key : String} {change : Option Item → Option Item}
    (kept : ∀ old new, (∀ item, old = some item → item.Ordered) → change old = some new →
      new.Ordered) :
    (entries : Entries) → {after : Entries} → entries.Ordered →
      entries.update key change = some after → after.Ordered
  | .nil, after, _, changed => by
    obtain ⟨item, made, same⟩ := Option.map_eq_some_iff.mp changed
    cases same
    rw [Entries.Ordered]
    exact ⟨kept none item (by simp) made, nilOrdered⟩
  | .cons k item rest, after, ordered, changed => by
    rw [Entries.Ordered] at ordered
    rw [Entries.update] at changed
    split at changed
    · obtain ⟨new, made, same⟩ := Option.map_eq_some_iff.mp changed
      cases same
      rw [Entries.Ordered]
      exact ⟨kept (some item) new (by rintro _ ⟨⟩; exact ordered.1) made, ordered.2⟩
    · obtain ⟨others, made, same⟩ := Option.map_eq_some_iff.mp changed
      cases same
      rw [Entries.Ordered]
      exact ⟨ordered.1, updateOrdered kept rest ordered.2 made⟩

theorem withinOrdered {dotted : Bool} {path : List String}
    {change : Bool → Entries → Option Entries}
    (kept : ∀ made old new, old.Ordered → change made old = some new → new.Ordered)
    {made : Bool} {entries after : Entries} (ordered : entries.Ordered)
    (changed : entries.within dotted path change made = some after) : after.Ordered := by
  induction path generalizing made entries after with
  | nil => exact kept made entries after ordered changed
  | cons key rest ih =>
    rw [Entries.within] at changed
    refine updateOrdered (fun old new known result => ?_) entries ordered changed
    cases old with
    | none =>
      obtain ⟨inner, grew, same⟩ := Option.map_eq_some_iff.mp result
      cases same
      rw [Item.Ordered]
      exact ih nilOrdered grew
    | some item =>
      have before := known item rfl
      cases item with
      | value v => cases result
      | table origin inner =>
        rw [Item.Ordered] at before
        dsimp only at result
        split at result
        · cases result
        · obtain ⟨grown, grew, same⟩ := Option.map_eq_some_iff.mp result
          cases same
          rw [Item.Ordered]
          exact ih before grew
      | rows finished current =>
        rw [Item.Ordered] at before
        obtain ⟨grown, grew, same⟩ := Option.map_eq_some_iff.mp result
        cases same
        rw [Item.Ordered]
        exact ⟨before.1, ih before.2 grew⟩

theorem defineOrdered {path : List String} {key : String} {v : Value} {entries after : Entries}
    (ordered : entries.Ordered) (inner : v.Ordered)
    (defined : entries.define path key v = some after) : after.Ordered := by
  refine withinOrdered (fun made old new known result => ?_) ordered defined
  split at result
  · cases result
  · refine updateOrdered (fun before item _ put => ?_) old known result
    cases before with
    | none =>
      cases put
      rwa [Item.Ordered]
    | some item => cases put

theorem openTableOrdered {path : List String} {key : String} {root after : Entries}
    (ordered : root.Ordered) (opened : root.openTable path key = some after) :
    after.Ordered := by
  refine withinOrdered (fun made old new known result => ?_) ordered opened
  refine updateOrdered (fun before item held put => ?_) old known result
  split at put
  · cases put
    rw [Item.Ordered, Entries.Ordered]
    trivial
  · rename_i entries
    have inside := held _ rfl
    cases put
    rw [Item.Ordered] at inside ⊢
    exact inside
  · cases put

theorem openRowOrdered {path : List String} {key : String} {root after : Entries}
    (ordered : root.Ordered) (opened : root.openRow path key = some after) : after.Ordered := by
  refine withinOrdered (fun made old new known result => ?_) ordered opened
  refine updateOrdered (fun before item held put => ?_) old known result
  split at put
  · cases put
    rw [Item.Ordered, Entries.Ordered]
    exact ⟨by simp, trivial⟩
  · rename_i finished current
    have inside := held _ rfl
    rw [Item.Ordered] at inside
    obtain ⟨row, read, same⟩ := Option.map_eq_some_iff.mp put
    cases same
    rw [Item.Ordered, List.forall_mem_append, List.forall_mem_singleton, Entries.Ordered]
    exact ⟨⟨inside.1, entriesValueOrdered current inside.2 read⟩, trivial⟩
  · cases put

/-! Reading -/

section values

variable {item : Read Value}
  (kept : ∀ text v rest, item text = some (v, rest) → v.Ordered)
include kept

theorem arrayItemsOrdered {fuel : Nat} {text rest : List Char} {vs : List Value}
    (read : arrayItems item fuel text = some (vs, rest)) : ∀ v ∈ vs, v.Ordered := by
  induction fuel generalizing text vs with
  | zero => cases read
  | succ fuel ih =>
    rw [arrayItems] at read
    split at read
    · cases read
      simp
    · simp only [Option.bind_eq_bind, Option.bind_eq_some_iff] at read
      obtain ⟨⟨v, next⟩, first, read⟩ := read
      have head := kept _ _ _ first
      dsimp only at read
      split at read
      · obtain ⟨⟨others, next⟩, tail, same⟩ := Option.bind_eq_some_iff.mp read
        cases same
        exact List.forall_mem_cons.mpr ⟨head, ih tail⟩
      · cases read
        exact List.forall_mem_singleton.mpr head
      · cases read

theorem keyValueOrdered {text rest : List Char} {path : List String} {key : String} {v : Value}
    (read : keyValue item text = some ((path, key, v), rest)) : v.Ordered := by
  simp only [keyValue, Option.bind_eq_bind, Option.bind_eq_some_iff] at read
  obtain ⟨_, -, _, -, _, -, ⟨w, next⟩, found, same⟩ := read
  cases same
  exact kept _ _ _ found

theorem inlinePairsOrdered {fuel : Nat} {entries after : Entries} {text rest : List Char}
    (ordered : entries.Ordered) (read : inlinePairs item fuel entries text = some (after, rest)) :
    after.Ordered := by
  induction fuel generalizing entries text with
  | zero => cases read
  | succ fuel ih =>
    simp only [inlinePairs, Option.bind_eq_bind, Option.bind_eq_some_iff] at read
    obtain ⟨⟨⟨path, key, v⟩, next⟩, pair, grown, defined, read⟩ := read
    have more := defineOrdered ordered (keyValueOrdered kept pair) defined
    split at read
    · exact ih more read
    · cases read
      exact more
    · cases read

end values

theorem valueOrdered {depth : Nat} {text rest : List Char} {v : Value}
    (read : value depth text = some (v, rest)) : v.Ordered := by
  have scalarOrdered {text rest : List Char} {v : Value}
      (read : scalar text = some (v, rest)) : v.Ordered :=
    singleOrdered (scalarKind read).1 (scalarKind read).2
  induction depth generalizing text rest v with
  | zero => exact scalarOrdered read
  | succ depth ih =>
    unfold value at read
    split at read
    · obtain ⟨⟨vs, next⟩, items, same⟩ := Option.map_eq_some_iff.mp read
      cases same
      rw [Value.Ordered, valuesOrdered]
      exact arrayItemsOrdered (fun _ _ _ => ih) items
    · simp only [Option.bind_eq_bind] at read
      split at read
      · obtain ⟨_, ⟨⟩, read⟩ := Option.bind_eq_some_iff.mp read
        obtain ⟨w, made, same⟩ := Option.bind_eq_some_iff.mp read
        cases same
        exact entriesValueOrdered _ nilOrdered made
      · obtain ⟨⟨entries, next⟩, pairs, read⟩ := Option.bind_eq_some_iff.mp read
        obtain ⟨w, made, same⟩ := Option.bind_eq_some_iff.mp read
        cases same
        exact entriesValueOrdered entries
          (inlinePairsOrdered (fun _ _ _ => ih) nilOrdered pairs) made
    · exact scalarOrdered read

theorem expressionOrdered {header next : Header} {root after : Entries} {text rest : List Char}
    (ordered : root.Ordered) (read : expression header root text = some (next, after, rest)) :
    after.Ordered := by
  unfold expression at read
  split at read
  · simp only [Option.bind_eq_bind, Option.bind_eq_some_iff] at read
    obtain ⟨_, -, grown, opened, same⟩ := read
    cases same
    exact openRowOrdered ordered opened
  · simp only [Option.bind_eq_bind, Option.bind_eq_some_iff] at read
    obtain ⟨_, -, grown, opened, same⟩ := read
    cases same
    exact openTableOrdered ordered opened
  · obtain ⟨_, -, same⟩ := Option.map_eq_some_iff.mp read
    cases same
    exact ordered
  · obtain ⟨_, -, same⟩ := Option.map_eq_some_iff.mp read
    cases same
    exact ordered
  · obtain ⟨_, -, same⟩ := Option.map_eq_some_iff.mp read
    cases same
    exact ordered
  · simp only [Option.bind_eq_bind, Option.bind_eq_some_iff] at read
    obtain ⟨⟨⟨path, key, v⟩, _⟩, pair, grown, within, _, -, same⟩ := read
    cases same
    have inner := keyValueOrdered (fun _ _ _ => valueOrdered) pair
    exact withinOrdered (fun _ _ _ known defined => defineOrdered known inner defined) ordered
      within

theorem expressionsOrdered {fuel : Nat} {header : Header} {root after : Entries}
    {text : List Char} (ordered : root.Ordered)
    (read : expressions fuel header root text = some after) : after.Ordered := by
  induction fuel generalizing header root text with
  | zero => cases read
  | succ fuel ih =>
    rw [expressions] at read
    split at read
    · cases read
      exact ordered
    · simp only [Option.bind_eq_bind, Option.bind_eq_some_iff] at read
      obtain ⟨⟨next, grown, rest⟩, one, others⟩ := read
      exact ih (expressionOrdered ordered one) others

theorem readOrdered {document : String} {t : Table} (read : read? document = some t) :
    t.Ordered := by
  simp only [read?, Option.bind_eq_bind, Option.bind_eq_some_iff] at read
  obtain ⟨entries, whole, made⟩ := read
  exact entriesTableOrdered entries (expressionsOrdered nilOrdered whole)
    made

end NotebookTidy.Toml
