import NotebookTidy.Proofs.Config.Alike
import NotebookTidy.Proofs.Config.ExtendChain
import NotebookTidy.Proofs.Config.Lookup
import NotebookTidy.Proofs.Glob.Slices
import NotebookTidy.Workspace

/-! Which paths a workspace formats: what its configuration says of included and excluded globs,
with the defaults of both, and what an explicit request passes over. More globs to exclude bring no
path into scope, and more globs to include put none out of it. -/
namespace NotebookTidy.Workspace
open Config
open Glob (Covers Matcher nonLineFeed)

/-- The strings that an array at the key gives; the others where there is no array. -/
inductive Gathers (t : Table) (key : String) (others : List String) : List String → Prop where
  | array {vs : Values} (given : t.get? key = some (.array vs)) :
      Gathers t key others (vs.toList.filterMap Value.string?)
  | missing (none : ∀ vs, t.get? key ≠ some (.array vs)) : Gathers t key others others

/-- The globs of a key, or its defaults, and behind them those that extend them. -/
def Effective (t : Table) (key extendKey : String) (defaults globs : List String) : Prop :=
  ∃ own extra, Gathers t key defaults own ∧ Gathers t extendKey [] extra ∧ globs = own ++ extra

/-- Some part of the path, as spelled, is what the glob stands for. -/
def Found (glob : String) (p : Path) : Prop :=
  ∃ part, part <:+: Matcher.pathBytes p ∧ Covers nonLineFeed glob part

/-- Nothing but more strings in the array at the key. -/
structure Adds (key : String) (t other : Table) : Prop where
  elsewhere : ∀ k, k ≠ key → other.get? k = t.get? k
  more : ∀ few many, Gathers t key [] few → Gathers other key [] many → few ⊆ many

theorem gathersStrings (t : Table) (key : String) (others : List String) :
    Gathers t key others ((t.strings? key).getD others) := by
  unfold Table.strings?
  cases found : t.get? key with
  | none => exact .missing fun vs => by rw [found]; exact nofun
  | some v =>
    cases v with
    | array vs => exact .array found
    | _ => exact .missing fun vs => by rw [found]; exact nofun

theorem effectiveGathered (t : Table) (key extendKey : String) (defaults : List String) :
    Effective t key extendKey defaults (effectiveGlobs t key extendKey defaults) :=
  ⟨_, _, gathersStrings t key defaults, gathersStrings t extendKey [], rfl⟩

theorem stringsSame {t other : Table} {key : String} (same : other.get? key = t.get? key) :
    other.strings? key = t.strings? key := by
  rw [Table.strings?, Table.strings?, same]

theorem effectiveSame {t other : Table} {key extendKey added : String} {defaults : List String}
    (adds : Adds added t other) (left : key ≠ added) (right : extendKey ≠ added) :
    effectiveGlobs other key extendKey defaults = effectiveGlobs t key extendKey defaults := by
  rw [effectiveGlobs, effectiveGlobs, stringsSame (adds.elsewhere key left),
    stringsSame (adds.elsewhere extendKey right)]

theorem effectiveAdds {t other : Table} {key extendKey : String} {defaults : List String}
    (adds : Adds extendKey t other) (apart : key ≠ extendKey) :
    effectiveGlobs t key extendKey defaults ⊆ effectiveGlobs other key extendKey defaults := by
  have more := adds.more _ _ (gathersStrings t extendKey []) (gathersStrings other extendKey [])
  rw [effectiveGlobs, effectiveGlobs, stringsSame (adds.elsewhere key apart)]
  exact List.append_subset.mpr ⟨List.subset_append_left _ _,
    List.Subset.trans more (List.subset_append_right _ _)⟩

section built
variable {options : Table} {factory : EngineFactory} {encoding : Text.Encoding} {w : Workspace}

theorem buildParts (built : build options factory encoding = .ok w) :
    Matcher.ofGlobs (effectiveGlobs options "include" "extend-include" defaultInclude) =
        .ok w.included ∧
      Matcher.ofGlobs (effectiveGlobs options "exclude" "extend-exclude" defaultExclude) =
        .ok w.excluded ∧
      w.forceExclude = decide (options.get? "force-exclude" = some (.boolean true)) := by
  have parts := builtFrom built
  exact ⟨parts.included, parts.excluded, parts.forced⟩

theorem acceptsFound {globs : List String} {m : Matcher} (built : Matcher.ofGlobs globs = .ok m)
    (p : Path) : m.accepts p = true ↔ ∃ glob ∈ globs, Found glob p :=
  Glob.occursSlice built (Matcher.pathBytes p)

theorem shouldFormatIff (p : Path) (explicit : Bool) : w.shouldFormat p explicit = true ↔
    (explicit = true ∧ w.forceExclude = false) ∨
      ((explicit = true ∨ w.included.accepts p = true) ∧ ¬ w.excluded.accepts p = true) := by
  unfold shouldFormat
  cases explicit <;> cases w.forceExclude <;> cases w.included.accepts p <;>
    cases w.excluded.accepts p <;> simp

theorem globsKept {globs : List String} {m : Matcher} (built : Matcher.ofGlobs globs = .ok m) :
    m.globs = globs := by
  obtain ⟨-, -, -, rfl⟩ := Glob.ofGlobsIff.mp built
  rfl

theorem formattedIff (built : build options factory encoding = .ok w) (p : Path) (explicit : Bool) :
    w.shouldFormat p explicit = true ↔
      (explicit = true ∧ options.get? "force-exclude" ≠ some (.boolean true)) ∨
        ((explicit = true ∨ ∃ glob ∈ w.included.globs, Found glob p) ∧
          ¬ ∃ glob ∈ w.excluded.globs, Found glob p) := by
  obtain ⟨including, excluding, forced⟩ := buildParts built
  rw [shouldFormatIff, acceptsFound including, acceptsFound excluding, globsKept including,
    globsKept excluding, forced, decide_eq_false_iff_not]

theorem explicitWider {p : Path} (formatted : w.shouldFormat p false = true) :
    w.shouldFormat p true = true := by
  rw [shouldFormatIff] at formatted ⊢
  obtain ⟨asked, -⟩ | ⟨-, kept⟩ := formatted
  · cases asked
  · exact .inr ⟨.inl rfl, kept⟩

variable {other : Table} {factory' : EngineFactory} {encoding' : Text.Encoding} {w' : Workspace}
  {p : Path} {explicit : Bool}

theorem excludingNarrows (built : build options factory encoding = .ok w)
    (built' : build other factory' encoding' = .ok w') (adds : Adds "extend-exclude" options other)
    (formatted : w'.shouldFormat p explicit = true) : w.shouldFormat p explicit = true := by
  obtain ⟨including, excluding, forced⟩ := buildParts built
  obtain ⟨including', excluding', forced'⟩ := buildParts built'
  rw [adds.elsewhere "force-exclude" (by decide)] at forced'
  rw [effectiveSame adds (by decide) (by decide), including] at including'
  have same : w'.included = w.included := (Except.ok.inj including').symm
  have more : effectiveGlobs options "exclude" "extend-exclude" defaultExclude ⊆
      effectiveGlobs other "exclude" "extend-exclude" defaultExclude :=
    effectiveAdds adds (by decide)
  rw [shouldFormatIff] at formatted ⊢
  rw [forced'.trans forced.symm, same] at formatted
  refine formatted.imp_right fun ⟨asked, kept⟩ => ⟨asked, fun excluded => kept ?_⟩
  exact Glob.occursMono more excluding excluding' excluded

theorem includingWidens (built : build options factory encoding = .ok w)
    (built' : build other factory' encoding' = .ok w') (adds : Adds "extend-include" options other)
    (formatted : w.shouldFormat p explicit = true) : w'.shouldFormat p explicit = true := by
  obtain ⟨including, excluding, forced⟩ := buildParts built
  obtain ⟨including', excluding', forced'⟩ := buildParts built'
  rw [adds.elsewhere "force-exclude" (by decide)] at forced'
  rw [effectiveSame adds (by decide) (by decide), excluding] at excluding'
  have same : w'.excluded = w.excluded := (Except.ok.inj excluding').symm
  have more : effectiveGlobs options "include" "extend-include" defaultInclude ⊆
      effectiveGlobs other "include" "extend-include" defaultInclude :=
    effectiveAdds adds (by decide)
  rw [shouldFormatIff] at formatted ⊢
  rw [forced'.trans forced.symm, same]
  refine formatted.imp_right fun ⟨asked, kept⟩ => ⟨asked.imp_right fun included => ?_, kept⟩
  exact Glob.occursMono more including including' included

end built

/-- What the options of a workspace say of its paths, and of those where there are more globs. -/
structure Scoped (options : Table) (w : Workspace) : Prop where
  included : Effective options "include" "extend-include" defaultInclude w.included.globs
  excluded : Effective options "exclude" "extend-exclude" defaultExclude w.excluded.globs
  decided : ∀ p explicit, w.shouldFormat p explicit = true ↔
    (explicit = true ∧ options.get? "force-exclude" ≠ some (.boolean true)) ∨
      ((explicit = true ∨ ∃ glob ∈ w.included.globs, Found glob p) ∧
        ¬ ∃ glob ∈ w.excluded.globs, Found glob p)
  explicit : ∀ p, w.shouldFormat p false = true → w.shouldFormat p true = true
  narrower : ∀ other factory encoding w', build other factory encoding = .ok w' →
    Adds "extend-exclude" options other →
      ∀ p explicit, w'.shouldFormat p explicit = true → w.shouldFormat p explicit = true
  wider : ∀ other factory encoding w', build other factory encoding = .ok w' →
    Adds "extend-include" options other →
      ∀ p explicit, w.shouldFormat p explicit = true → w'.shouldFormat p explicit = true

theorem builtScoped {options : Table} {factory : EngineFactory} {encoding : Text.Encoding}
    {w : Workspace} (built : build options factory encoding = .ok w) : Scoped options w where
  included := globsKept (buildParts built).1 ▸ effectiveGathered ..
  excluded := globsKept (buildParts built).2.1 ▸ effectiveGathered ..
  decided := formattedIff built
  explicit _ := explicitWider
  narrower _ _ _ _ built' adds _ _ := excludingNarrows built built' adds
  wider _ _ _ _ built' adds _ _ := includingWidens built built' adds

def quietFactory : EngineFactory :=
  fun _ encoding => .ok ⟨encoding, fun _ => .ok "", fun _ => .ok []⟩

/-- The base of the included globs is no array, and one of the globs behind it no string. -/
def proseOptions : Table :=
  .cons "extend-include" (.array (.cons (.string "*.md") (.cons (.integer 7) .nil)))
    (.cons "force-exclude" (.boolean true) (.cons "include" (.integer 5) .nil))

def fencedOptions : Table :=
  .cons "extend-exclude" (.array (.cons (.boolean true) (.cons (.string "docs") .nil))) proseOptions

theorem builtScopedExtended : ∃ w w', build proseOptions quietFactory .utf8 = .ok w ∧
    build fencedOptions quietFactory .utf8 = .ok w' ∧
    w.included.globs = defaultInclude ++ ["*.md"] ∧
    w'.shouldFormat ⟨"dist/a.md"⟩ true = false ∧ w'.shouldFormat ⟨"docs/a.md"⟩ true = false ∧
    w'.shouldFormat ⟨"src/a.md"⟩ false = true ∧ w.shouldFormat ⟨"src/a.md"⟩ false = true := by
  have ok : (build proseOptions quietFactory .utf8).toOption.isSome = true := by decide +kernel
  have answers : (build fencedOptions quietFactory .utf8).toOption.map (fun w =>
      (w.shouldFormat ⟨"dist/a.md"⟩ true, w.shouldFormat ⟨"docs/a.md"⟩ true,
        w.shouldFormat ⟨"src/a.md"⟩ false)) = some (false, false, true) := by decide +kernel
  obtain ⟨w, built⟩ := Option.isSome_iff_exists.mp ok
  obtain ⟨w', built', said⟩ := Option.map_eq_some_iff.mp answers
  simp only [Prod.mk.injEq] at said
  obtain ⟨dist, docs, src⟩ := said
  have adds : Adds "extend-exclude" proseOptions fencedOptions :=
    { elsewhere := fun k other => by rw [fencedOptions, Table.get?, if_neg other.symm]
      more := fun few many gathers _ => by
        cases gathers with
        | array given => cases given
        | missing => exact List.nil_subset many }
  refine ⟨w, w', toOptionOk built, toOptionOk built', ?_, dist, docs, src,
    (builtScoped (toOptionOk built)).narrower _ _ _ _ (toOptionOk built') adds _ _ src⟩
  rw [globsKept (buildParts (toOptionOk built)).1]
  decide

end NotebookTidy.Workspace
