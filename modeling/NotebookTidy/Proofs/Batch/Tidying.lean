import NotebookTidy.Batch.Process
import NotebookTidy.Proofs.Config.Discovery
import NotebookTidy.Proofs.Notebook.Reread
import NotebookTidy.Proofs.Storage.Rewriting

/-! What becomes of one target. It depends on the text of its file alone, and no file is written but
its own, with another text than it had. -/
namespace NotebookTidy.Batch
open Storage (FileTree)
open Storage.FileTree (Rewritten)
open Source (Kind)

theorem kindConfigured {name : String} (known : name ∈ Config.fileNames) {p : Path}
    (named : p.fileName = some name) : Kind.ofPath p = none := by
  simp only [Config.fileNames, Config.projectFile, List.mem_cons, List.not_mem_nil,
    or_false] at known
  rw [Kind.ofPath, Path.extension, named]
  rcases known with rfl | rfl | rfl <;> decide

theorem kindOther {tree : FileTree} {p : Path} {names : List String}
    (kind : Kind.ofPath p ≠ none) (leads : tree.names? p = some names) :
    ∀ name ∈ names.getLast?, name ∉ Config.fileNames := by
  intro name last known
  cases named : p.fileName with
  | none =>
    refine kind ?_
    rw [Kind.ofPath, Path.extension, named]
    rfl
  | some own =>
    cases (FileTree.namesLast leads named).symm.trans last
    exact kind (kindConfigured known named)

section tidied

variable {tree before after : FileTree} {p : Path} {kind : Kind} {f : String → String}

theorem tidiedSame (same : after.textAt? p = before.textAt? p) :
    tidied after p kind f = tidied before p kind f := by
  rw [← FileTree.readTextAt, ← FileTree.readTextAt] at same
  rw [tidied, tidied]
  cases there : after.readText p with
  | error e =>
    rw [there] at same
    cases here : before.readText p with
    | error e => rfl
    | ok text =>
      rw [here] at same
      cases same
  | ok text =>
    rw [there] at same
    cases here : before.readText p with
    | error e =>
      rw [here] at same
      cases same
    | ok own =>
      rw [here] at same
      cases same
      rfl

theorem tidiedFound {output : String} (done : tidied tree p kind f = .ok (some output)) :
    ∃ names text, tree.find p = .ok (names, .file (.text text)) ∧ output ≠ text := by
  rw [tidied] at done
  cases read : tree.readText p with
  | error e =>
    rw [read] at done
    cases done
  | ok text =>
    have at_ := tree.readTextAt p
    rw [read] at at_
    obtain ⟨names, found⟩ := FileTree.textFound at_.symm
    refine ⟨names, text, found, ?_⟩
    rw [read] at done
    cases kind with
    | script =>
      dsimp only at done
      split at done
      · cases done
      · rename_i other
        cases done
        exact other
    | notebook =>
      dsimp only at done
      cases changed : Notebook.transform text f with
      | error e =>
        rw [changed] at done
        cases done
      | ok result =>
        rw [changed] at done
        cases done
        exact Notebook.transformDiffers changed

end tidied

section target

variable (job : Job) (pair : Workspace.Pair) (tree : FileTree) (t : Target)

/-- All that a target can do to a tree. -/
theorem tidyStep :
    (∃ d, tidyTarget job pair tree t = (tree, d) ∧ (d = .changed → job.dry = true)) ∨
    ∃ names text output, job.dry = false ∧ Kind.ofPath t.path ≠ none ∧
      tree.find t.path = .ok (names, .file (.text text)) ∧ output ≠ text ∧
      tidyTarget job pair tree t = (tree.put (.file (.text output)) names, .changed) := by
  rw [tidyTarget]
  split
  · cases is : Kind.ofPath t.path with
    | none => exact .inl ⟨_, rfl, nofun⟩
    | some kind =>
      dsimp only
      cases done : tidied tree t.path kind (job.tidy pair kind) with
      | error e => exact .inl ⟨_, rfl, nofun⟩
      | ok output? =>
        cases output? with
        | none => exact .inl ⟨_, rfl, nofun⟩
        | some output =>
          obtain ⟨names, text, found, differs⟩ := tidiedFound done
          dsimp only
          cases dry : job.dry with
          | true => exact .inl ⟨.changed, rfl, fun _ => rfl⟩
          | false =>
            rw [if_neg Bool.false_ne_true, FileTree.writeFound found]
            exact .inr ⟨names, text, output, rfl, by simp, found, differs, rfl⟩
  · exact .inl ⟨_, rfl, nofun⟩

theorem tidyRewritten :
    Rewritten (fun names => tree.names? t.path = some names) tree
      (tidyTarget job pair tree t).1 := by
  rcases tidyStep job pair tree t with ⟨d, step, -⟩ |
    ⟨names, text, output, -, -, found, -, step⟩
  · rw [step]
    exact .refl _ tree
  · rw [step]
    obtain ⟨leads, there⟩ := FileTree.findNames found
    refine (FileTree.putRewritten there (.text output)).mono ?_
    rintro key rfl
    exact leads

end target

theorem tidyChanged {job : Job} {pair : Workspace.Pair} {tree : FileTree} {t : Target} {kind : Kind}
    {output : String} (chosen : pair.format.shouldFormat t.path t.explicit = true)
    (is : Kind.ofPath t.path = some kind)
    (done : tidied tree t.path kind (job.tidy pair kind) = .ok (some output)) :
    (tidyTarget job pair tree t).2 = .changed := by
  obtain ⟨names, text, found, -⟩ := tidiedFound done
  rw [tidyTarget, if_pos chosen, is]
  dsimp only
  rw [done]
  dsimp only
  rw [FileTree.writeFound found]
  split <;> rfl

theorem tidySame (job job' : Job) (tidies : job.tidy = job'.tidy) (pair : Workspace.Pair)
    {before after : FileTree} {t : Target} (same : after.textAt? t.path = before.textAt? t.path) :
    (tidyTarget job pair after t).2 = (tidyTarget job' pair before t).2 := by
  by_cases chosen : pair.format.shouldFormat t.path t.explicit = true
  · cases is : Kind.ofPath t.path with
    | none => simp only [tidyTarget, if_pos chosen, is]
    | some kind =>
      have alike : tidied after t.path kind (job.tidy pair kind) =
          tidied before t.path kind (job'.tidy pair kind) := by
        rw [tidies]
        exact tidiedSame same
      cases done : tidied before t.path kind (job'.tidy pair kind) with
      | error e => simp only [tidyTarget, if_pos chosen, is, alike, done]
      | ok output? =>
        cases output? with
        | none => simp only [tidyTarget, if_pos chosen, is, alike, done]
        | some output =>
          rw [tidyChanged chosen is (alike.trans done), tidyChanged chosen is done]
  · rw [tidyTarget, tidyTarget, if_neg chosen, if_neg chosen]

end NotebookTidy.Batch
