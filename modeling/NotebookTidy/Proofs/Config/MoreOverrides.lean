import NotebookTidy.Proofs.Config.Layers
import NotebookTidy.Proofs.Toml.Ordered

/-! Overrides that are laid over others before a resolution come out on top of what is resolved
without them. They change neither which files are found nor what goes wrong, as long as they name
no base of their own, and nothing below them separates their tables from those of the files. -/
namespace NotebookTidy.Config

/-- Wherever a tree that is laid over this one holds a table, this one holds no single value. -/
def Table.Receives (below laid : Table) : Prop :=
  ∀ path x y, laid.at? path = some x → x.isTable = true → below.at? path = some y →
    y.isTable = true

theorem receivesBridges {below laid : Table} (receives : below.Receives laid) (a : Value) :
    (Value.table below).Bridges a (.table laid) :=
  fun path _ y z _ middle high _ kind => receives path z y high kind middle

theorem receivesMerge {base config laid : Table} (low : base.Receives laid)
    (high : config.Receives laid) : (merge base config).Receives laid := by
  intro path x y stands kind below
  have whole : Value.table (merge base config) =
      (Value.table config).over (some (.table base)) := (overTables config base).symm
  rw [Table.at?, whole] at below
  rcases kindOver below with ⟨z, above, same⟩ | ⟨z, under, same⟩
  · exact same ▸ high path x z stands kind above
  · exact same ▸ low path x z stands kind under

theorem receivesErase {config laid : Table} (key : String) (receives : config.Receives laid) :
    (config.erase key).Receives laid := by
  intro path x y stands kind below
  cases path with
  | nil => cases below; rfl
  | cons first rest =>
    by_cases other : (first :: rest).head? ≠ some key
    · rw [atErase other (by simp)] at below
      exact receives _ x y stands kind below
    · rw [Table.at?, atCons, getErase, if_pos (by simpa using (not_not.mp other).symm)] at below
      cases below

theorem eraseOver {key : String} {laid config : Table} (sorted : config.Sorted)
    (plain : laid.get? key = none) :
    (laid.over config).erase key = laid.over (config.erase key) := by
  refine tableExt (eraseSorted key (overSorted sorted laid))
    (overSorted (eraseSorted key sorted) laid) fun k => ?_
  rw [getErase, getOver, getOver, getErase]
  by_cases here : key = k
  · subst here
    simp [plain]
  · simp only [if_neg here]

namespace OrderedTable

def loaded {s : Storage} {p : Path} {t : Table} (loaded : loadTable s p = .ok t) :
    OrderedTable where
  table := t
  ordered := by
    obtain ⟨text, -, read⟩ := loadTableText loaded
    exact Toml.readOrdered read

def base (p : Path) (t : OrderedTable) : OrderedTable where
  table := baseTable p t
  ordered := by
    rw [baseTable]
    split
    · cases found : t.table.ruffSection with
      | none => exact empty.ordered
      | some section_ => exact sectionOrdered t.ordered found
    · exact t.ordered

def found {s : Storage} {directories : List Path} {source : Path} {own : Table}
    (found : findAbove s directories = .ok (some (source, own))) : OrderedTable where
  table := own
  ordered := by
    obtain ⟨t, table, rfl | inside⟩ := foundTable found
    · exact (loaded table).ordered
    · exact sectionOrdered (loaded table).ordered inside

end OrderedTable

/-- The tables that a resolution loads: that of the file found, and those of the files that it
comes to along the chain. -/
def Loaded (s : Storage) (p : Path) (overrides t : Table) : Prop :=
  ∃ source own, findAbove s p.parents = .ok (some (source, own)) ∧
    (t = own ∨ ∃ files last, Chain s (.ofConfig source.directory (merge own overrides)) files last ∧
      Fresh [source.normalize.components] files ∧ ∃ f ∈ files, layerOf s f = .ok t)

section laid

variable {s : Storage} {laid : Table} (plain : laid.get? extendKey = none)
include plain

theorem targetLaid (config : Table) : extendTarget (merge config laid) = extendTarget config := by
  rw [extendTarget, merge, getOver, plain]
  rfl

theorem baseUnder (base : OrderedTable) {config : Table} (sorted : config.Sorted)
    (receives : config.Receives laid) :
    merge base ((merge config laid).erase extendKey) =
      merge (merge base (config.erase extendKey)) laid := by
  simp only [merge]
  rw [eraseOver sorted plain]
  exact (overAssoc base _ laid (receivesBridges (receivesErase _ receives) _)).symm

theorem followLaid (visited : List (List Component)) (directory : Path) (config : Table)
    (sorted : config.Sorted) (receives : config.Receives laid)
    (chain : ∀ files last, Chain s (.ofConfig directory config) files last →
      Fresh visited files → ∀ f ∈ files, ∀ t, layerOf s f = .ok t → t.Receives laid) :
    followExtends s visited directory (merge config laid) =
      (followExtends s visited directory config).map fun (final, bases) =>
        (merge final laid, bases) := by
  have same (directory : Path) (config : Table) :
      Declaration.ofConfig directory (merge config laid) = .ofConfig directory config := by
    rw [Declaration.ofConfig, targetLaid plain]
    rfl
  -- Both runs declare the same bases. Each base goes under `config` here and under `config` with
  -- `laid` on top there, which is the same with `laid` on top once more.
  induction visited, directory, config using followInduction s with
  | nothing visited directory config names =>
    rw [followNothing names, followNothing ((same ..).symm ▸ names)]
    rfl
  | seen visited directory config q names old =>
    rw [followSeen names old, followSeen ((same ..).symm ▸ names) old]
    rfl
  | broken visited directory config q e names new failed =>
    rw [followBroken names new failed, followBroken ((same ..).symm ▸ names) new failed]
    rfl
  | step visited directory config q t names new loaded ih =>
    have under : merge (baseTable q t) ((merge config laid).erase extendKey) =
        merge (merge (baseTable q t) (config.erase extendKey)) laid :=
      baseUnder plain ((OrderedTable.loaded loaded).base q) sorted receives
    have layer : layerOf s q = .ok (baseTable q t) := by rw [layerOf, loaded]; rfl
    have start : Fresh (q.components :: visited) [] := ⟨.nil, by simp⟩
    have low := chain [q] _ (.step names loaded (.here _)) (freshCons.mpr ⟨new, start⟩) q
      (List.mem_singleton_self q) _ layer
    rw [followStep names new loaded, followStep ((same ..).symm ▸ names) new loaded,
      under, ih]
    · cases followExtends s (q.components :: visited) q.directory
        (merge (baseTable q t) (config.erase extendKey)) <;> rfl
    · exact overSorted ((OrderedTable.loaded loaded).base q).sorted _
    · exact receivesMerge low (receivesErase _ receives)
    · intro files last rest fresh f mem
      rw [Declaration.ofConfig, targetOfBase] at rest
      exact chain _ _ (.step names loaded rest) (freshCons.mpr ⟨new, fresh⟩) f
        (List.mem_cons_of_mem _ mem)

theorem resolveLaid {p : Path} {overrides : Table} (receives : overrides.Receives laid)
    (files : ∀ t, Loaded s p overrides t → t.Receives laid) :
    resolve s p (merge overrides laid) = (resolve s p overrides).map fun r =>
      { r with config := merge r.config laid } := by
  rw [resolve, resolve]
  cases found : findAbove s p.parents with
  | error e => rfl
  | ok result =>
    cases result with
    | none => rfl
    | some pair =>
      obtain ⟨source, own⟩ := pair
      have first : own.Receives laid := files own ⟨source, own, found, .inl rfl⟩
      have grouped : merge own (merge overrides laid) = merge (merge own overrides) laid :=
        (overAssoc (.found found) overrides laid (receivesBridges receives _)).symm
      dsimp only
      rw [grouped, followLaid plain [source.normalize.components] source.directory
        (merge own overrides) (overSorted (OrderedTable.found found).sorted _)
        (receivesMerge first receives)]
      · cases followExtends s [source.normalize.components] source.directory
          (merge own overrides) <;> rfl
      · intro bases last chain fresh f mem t layer
        exact files t ⟨source, own, found, .inr ⟨bases, last, chain, fresh, f, mem, layer⟩⟩

end laid
end NotebookTidy.Config
