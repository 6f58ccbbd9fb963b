import NotebookTidy.Proofs.Config.ExtendOutcome
import NotebookTidy.Proofs.Config.Override

/-! Which layer a resolved setting comes from. The overrides, the file found and the files that
it extends are layers in this order; where no path leads to a table in one and to a single value in
another, each setting is the one of the first layer that has it, at any depth. -/
namespace NotebookTidy.Config

def Value.Agree (v w : Value) : Prop :=
  ∀ path x y, v.at? path = some x → w.at? path = some y → x.isTable = y.isTable

def Consistent (layers : List Table) : Prop :=
  ∀ a ∈ layers, ∀ b ∈ layers, ∀ path v w,
    a.at? path = some v → b.at? path = some w → v.isTable = w.isTable

theorem consistentLeft {above below : List Table} (h : Consistent (above ++ below)) :
    Consistent above := fun a left b right =>
  h a (List.mem_append_left _ left) b (List.mem_append_left _ right)

theorem consistentFlat {layers : List Table}
    (flat : ∀ t ∈ layers, ∀ key v, t.get? key = some v → v.isTable = false) :
    Consistent layers := by
  have single {t : Table} (mem : t ∈ layers) {key : String} {rest : List String} {v : Value}
      (stands : t.at? (key :: rest) = some v) : v.isTable = false := by
    rw [Table.at?, atCons] at stands
    obtain ⟨u, held, leads⟩ := Option.bind_eq_some_iff.mp stands
    have plain := flat t mem key u held
    cases rest with
    | nil => cases leads; exact plain
    | cons next rest => rw [atSingle plain] at leads; cases leads
  intro a left b right path v w there here
  cases path with
  | nil => cases there; cases here; rfl
  | cons key rest => rw [single left there, single right here]

theorem flatSingle {k : String} {u : Value} (plain : u.isTable = false) (key : String) (v : Value)
    (held : (Table.cons k u .nil).get? key = some v) : v.isTable = false := by
  rw [Table.get?] at held
  split at held
  · cases held
    exact plain
  · cases held

theorem agreeInner {a b : Table} {key : String} {v w : Value}
    (agree : (Value.table a).Agree (.table b)) (left : a.get? key = some v)
    (right : b.get? key = some w) : v.Agree w := by
  intro path x y there here
  refine agree (key :: path) x y ?_ ?_
  · rwa [atCons, left]
  · rwa [atCons, right]

theorem leafRoot (v : Value) : v.leaf? [] = if v.isTable then none else some v := by
  cases kind : v.isTable <;> simp [Value.leaf?, Value.at?, kind]

theorem leafOver {v : Value} {below : Option Value} (path : List String)
    (agree : ∀ w, below = some w → v.Agree w) :
    (v.over below).leaf? path = (v.leaf? path).or (below.bind (·.leaf? path)) := by
  have kinds {w : Value} (under : below = some w) : v.isTable = w.isTable :=
    agree w under [] v w rfl rfl
  -- What is laid over another value is of its kind; only two tables lead on to the next key.
  induction path generalizing v below with
  | nil =>
    simp only [leafRoot, overKind]
    cases kind : v.isTable with
    | false => simp [overSingle kind]
    | true =>
      cases below with
      | none => rfl
      | some w => simp [← kinds rfl, kind]
  | cons key rest ih =>
    cases kind : v.isTable with
    | false =>
      rw [overSingle kind, leafSingle kind]
      cases below with
      | none => rfl
      | some w => exact (leafSingle ((kinds rfl).symm.trans kind) ..).symm
    | true =>
      obtain ⟨t, rfl⟩ := isTableIff.mp kind
      cases below with
      | none => simp [Value.over]
      | some w =>
        obtain ⟨b, rfl⟩ := isTableIff.mp ((kinds rfl).symm.trans kind)
        simp only [Value.over, Option.bind_some, leafCons, getOver]
        cases own : t.get? key with
        | none => rfl
        | some u =>
          have inner (w : Value) (under : b.get? key = some w) : u.Agree w :=
            agreeInner (agree _ rfl) own under
          exact ih inner fun under => inner _ under [] _ _ rfl rfl

theorem kindOver {v x : Value} {below : Option Value} {path : List String}
    (stands : (v.over below).at? path = some x) :
    (∃ y, v.at? path = some y ∧ y.isTable = x.isTable) ∨
      ∃ y, below.bind (·.at? path) = some y ∧ y.isTable = x.isTable := by
  induction path generalizing v below with
  | nil =>
    cases stands
    exact .inl ⟨v, rfl, (overKind v below).symm⟩
  | cons key rest ih =>
    cases kind : v.isTable with
    | false =>
      rw [overSingle kind] at stands
      exact .inl ⟨x, stands, rfl⟩
    | true =>
      obtain ⟨t, rfl⟩ := isTableIff.mp kind
      rw [atOverCons] at stands
      cases own : t.get? key with
      | none =>
        rw [own] at stands
        exact .inr ⟨x, stands, rfl⟩
      | some u =>
        rw [own] at stands
        rw [atCons, own, bindAtCons below]
        exact ih stands

theorem atErase {t : Table} {key : String} {path : List String} (other : path.head? ≠ some key)
    (inside : path ≠ []) : (t.erase key).at? path = t.at? path := by
  cases path with
  | nil => exact absurd rfl inside
  | cons k rest =>
    have apart : key ≠ k := fun same => other (congrArg some same.symm)
    simp only [Table.at?, atCons, getErase, if_neg apart]

/-- A configuration that holds, away from its `extend`, what the layers leave of each other, and no
table where all of them have a single value or the other way about. -/
structure Layered (config : Table) (layers : List Table) : Prop where
  leaves : ∀ path, path.head? ≠ some extendKey →
    config.leaf? path = layers.findSome? (·.leaf? path)
  kinds : ∀ path x, config.at? path = some x →
    ∃ t ∈ layers, ∃ y, t.at? path = some y ∧ y.isTable = x.isTable

theorem layeredOne (t : Table) : Layered t [t] where
  leaves path _ := by simp
  kinds path x stands := ⟨t, by simp, x, stands, rfl⟩

theorem layeredErase {config : Table} {layers : List Table} (h : Layered config layers) :
    Layered (config.erase extendKey) layers := by
  constructor
  · intro path other
    rw [← h.leaves path other]
    by_cases inside : path = []
    · subst inside
      rfl
    · exact congrArg (·.filter fun x => !x.isTable) (atErase other inside)
  · intro path x stands
    by_cases inside : path = []
    · subst inside
      cases stands
      exact h.kinds [] (.table config) rfl
    · by_cases other : path.head? = some extendKey
      · cases path with
        | nil => exact absurd rfl inside
        | cons key rest =>
          cases other
          rw [Table.at?, atCons, getErase, if_pos rfl] at stands
          cases stands
      · rw [atErase other inside] at stands
        exact h.kinds path x stands

theorem layeredOver {config base : Table} {layers : List Table} (h : Layered config layers)
    (consistent : Consistent (layers ++ [base])) :
    Layered (merge base config) (layers ++ [base]) := by
  have last : base ∈ layers ++ [base] := List.mem_append_right _ (List.mem_singleton_self _)
  have same : Value.table (merge base config) = (Value.table config).over (some (.table base)) :=
    (overTables config base).symm
  have agree : (Value.table config).Agree (.table base) := by
    intro path x y there here
    obtain ⟨t, mem, z, stands, kind⟩ := h.kinds path x there
    rw [← kind]
    exact consistent t (List.mem_append_left _ mem) base last path z y stands here
  constructor
  · intro path other
    have both : ((Value.table config).over (some (.table base))).leaf? path =
        (config.leaf? path).or (base.leaf? path) := by
      refine leafOver path fun w under => ?_
      cases under
      exact agree
    rw [Table.leaf?, same, both, List.findSome?_append, ← h.leaves path other]
    simp
  · intro path x stands
    rw [Table.at?, same] at stands
    rcases kindOver stands with ⟨y, above, kind⟩ | ⟨y, below, kind⟩
    · obtain ⟨t, mem, z, found, alike⟩ := h.kinds path y above
      exact ⟨t, List.mem_append_left _ mem, z, found, alike.trans kind⟩
    · exact ⟨base, last, y, below, kind⟩

def layerOf (s : Storage) (p : Path) : Except Error Table := (loadTable s p).map (baseTable p)

theorem followLayers {s : Storage} {visited : List (List Component)} {directory : Path}
    {config final : Table} {bases : List Path}
    (done : followExtends s visited directory config = .ok (final, bases)) :
    ∃ tables, bases.mapM (layerOf s) = .ok tables ∧
      ∀ layers, Layered config layers → Consistent (layers ++ tables) →
        Layered final (layers ++ tables) := by
  induction visited, directory, config using followInduction s generalizing bases with
  | nothing visited directory config names =>
    rw [followNothing names] at done
    cases done
    exact ⟨[], rfl, fun layers h _ => by rwa [List.append_nil]⟩
  | seen visited directory config q names old =>
    rw [followSeen names old] at done
    cases done
  | broken visited directory config q e names new failed =>
    rw [followBroken names new failed] at done
    cases done
  | step visited directory config q t names new loaded ih =>
    rw [followStep names new loaded] at done
    obtain ⟨⟨last, more⟩, rest, same⟩ := mapOk done
    cases same
    obtain ⟨tables, read, layered⟩ := ih rest
    have layer : layerOf s q = .ok (baseTable q t) := by rw [layerOf, loaded]; rfl
    refine ⟨baseTable q t :: tables, ?_, fun layers h consistent => ?_⟩
    · rw [List.mapM_cons, layer, read]
      rfl
    · rw [List.append_cons] at consistent ⊢
      exact layered _ (layeredOver (layeredErase h) (consistentLeft consistent)) consistent

theorem firstOfTable {s : Storage} {listing : List Storage.Child} {names : List String}
    {source : Path} {own : Table} (found : firstOf s listing names = .ok (some (source, own))) :
    ∃ t, loadTable s source = .ok t ∧ (own = t ∨ t.ruffSection = some own) := by
  induction names with
  | nil => cases found
  | cons name rest ih =>
    rw [firstOf] at found
    split at found
    · exact ih found
    · split at found
      · cases found
      · rename_i t loaded
        split at found
        · split at found
          · rename_i section_ inside
            cases found
            exact ⟨t, loaded, .inr inside⟩
          · exact ih found
        · cases found
          exact ⟨own, loaded, .inl rfl⟩

theorem foundTable {s : Storage} {directories : List Path} {source : Path} {own : Table}
    (found : findAbove s directories = .ok (some (source, own))) :
    ∃ t, loadTable s source = .ok t ∧ (own = t ∨ t.ruffSection = some own) := by
  induction directories with
  | nil => cases found
  | cons d rest ih =>
    rw [findAbove] at found
    split at found
    · cases found
    · rename_i here
      cases found
      exact firstOfTable here
    · exact ih found

theorem resolveLayers {s : Storage} {p source : Path} {overrides : Table} {r : Resolved}
    (done : resolve s p overrides = .ok r) (governed : r.source = some source) :
    ∃ own bases, findAbove s p.parents = .ok (some (source, own)) ∧
      (∃ t, loadTable s source = .ok t ∧ (own = t ∨ t.ruffSection = some own)) ∧
      r.bases.mapM (layerOf s) = .ok bases ∧
      (Consistent (overrides :: own :: bases) → ∀ path, path.head? ≠ some extendKey →
        r.config.leaf? path = (overrides :: own :: bases).findSome? (·.leaf? path)) := by
  rw [resolve] at done
  split at done
  · cases done
  · cases done
    cases governed
  · rename_i file own found
    obtain ⟨⟨final, files⟩, followed, rfl⟩ := mapOk done
    cases governed
    obtain ⟨bases, read, layered⟩ := followLayers followed
    refine ⟨own, bases, found, foundTable found, read, fun consistent => ?_⟩
    have whole : Consistent ([overrides] ++ [own] ++ bases) := consistent
    have first := layeredOver (layeredOne overrides) (consistentLeft whole)
    exact (layered _ first whole).leaves

def nestedLayers : List Table :=
  [.cons "y" (.integer 2) .nil, .cons "extend" (.string "../b.toml") .nil,
    .cons "x" (.integer 1) .nil]

theorem nestedConsistent : Consistent nestedLayers := by
  refine consistentFlat ?_
  simp only [nestedLayers, List.forall_mem_cons]
  exact ⟨flatSingle rfl, flatSingle rfl, flatSingle rfl, by simp⟩

theorem nestedResolved :
    resolve nestedMemory.storage ⟨"d/x.py"⟩ (.cons "y" (.integer 2) .nil) =
      .ok ⟨.cons "x" (.integer 1) (.cons "y" (.integer 2) .nil), some ⟨"d/ruff.toml"⟩,
        [⟨"b.toml"⟩]⟩ := by
  have next : (Declaration.ofConfig (Path.directory ⟨"d/ruff.toml"⟩)
      (merge (.cons "extend" (.string "../b.toml") .nil)
        (.cons "y" (.integer 2) .nil))).next? = some ⟨"b.toml"⟩ := by decide +kernel
  have new : Path.components ⟨"b.toml"⟩ ∉ [(Path.normalize ⟨"d/ruff.toml"⟩).components] := by
    decide
  have merged : merge (baseTable ⟨"b.toml"⟩ (.cons "x" (.integer 1) .nil))
      ((merge (.cons "extend" (.string "../b.toml") .nil)
        (.cons "y" (.integer 2) .nil)).erase extendKey) =
        .cons "x" (.integer 1) (.cons "y" (.integer 2) .nil) := by decide +kernel
  have last : (Declaration.ofConfig (Path.directory ⟨"b.toml"⟩)
      (.cons "x" (.integer 1) (.cons "y" (.integer 2) .nil))).next? = none := by decide +kernel
  rw [resolveFound nestedFound, followStep next new nestedBase, merged, followNothing last]
  rfl

theorem resolveLayersNested : ∃ r,
    resolve nestedMemory.storage ⟨"d/x.py"⟩ (.cons "y" (.integer 2) .nil) = .ok r ∧
      r.config.leaf? ["x"] = some (.integer 1) := by
  obtain ⟨own, bases, found, -, read, decided⟩ := resolveLayers nestedResolved rfl
  cases nestedFound.symm.trans found
  have layer : layerOf nestedMemory.storage ⟨"b.toml"⟩ = .ok (.cons "x" (.integer 1) .nil) := by
    rw [layerOf, nestedBase]
    rfl
  rw [List.mapM_cons, layer] at read
  cases read
  exact ⟨_, nestedResolved, decided nestedConsistent ["x"] (by decide)⟩

end NotebookTidy.Config
