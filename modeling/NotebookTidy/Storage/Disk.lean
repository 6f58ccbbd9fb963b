import NotebookTidy.Storage.Basic
import NotebookTidy.Storage.FileTree
import NotebookTidy.Text.Encoding

/-!
A storage over a tree of files. Relative paths, the empty one included, start at a directory of the
tree. Paths have a limit to their length, so only finitely many of them hold a text.
-/
namespace NotebookTidy.Storage
open Text (byteLength)

namespace Disk

def children (p : Path) (cs : Children) : List Child :=
  cs.toList.map fun (name, _) => .ofPath (p.join ⟨name.text⟩)

private def fault (p : Path) : OsFault → Error
  | .noEntry => .notFound p
  | e => .failed p e.message

def resolved (root p : Path) : Path := if p.text.isEmpty then root else root.join p

def lookUp (tree : FileTree) (root p : Path) : Except Error Entry :=
  match tree.find (resolved root p) with
  | .ok (_, .directory cs) => .ok (.at p (.directory (children p cs)))
  | .ok (_, .file (.text t)) => .ok (.at p (.text t))
  | .ok (_, .file (.binary _)) => .error (fault p .notText)
  | .error e => .error (fault p e)

theorem findShort {tree : FileTree} {p : Path} {found : List String × FileTree}
    (h : tree.find p = .ok found) : byteLength p.text.toList < FileTree.pathLimit := by
  unfold FileTree.find at h
  split at h
  · cases h
  · split at h
    · cases h
    · next long => exact Nat.lt_of_not_le long

theorem byteLengthResolved (root p : Path) :
    byteLength p.text.toList ≤ byteLength (resolved root p).text.toList := by
  unfold resolved
  split
  · next h =>
    have : p.text = "" := by simpa using h
    simp [this, byteLength]
  · unfold Path.join
    split
    · exact Nat.le_refl _
    · -- What is joined stands at the end, with or without a separator before it.
      split <;> rw [String.toList_append, Text.byteLengthAppend] <;> exact Nat.le_add_left ..

def storage (tree : FileTree) (root : Path) : Storage where
  get := lookUp tree root
  finite := by
    obtain ⟨held, all⟩ := Text.existsBoundedTexts FileTree.pathLimit
    refine ⟨held.map fun text => Path.components ⟨String.ofList text⟩, ?_⟩
    rintro p e found ⟨t, text⟩
    have short : byteLength p.text.toList < FileTree.pathLimit := by
      unfold lookUp at found
      cases h : tree.find (resolved root p) with
      | error fault => simp [h] at found
      | ok place => exact Nat.lt_of_le_of_lt (byteLengthResolved root p) (findShort h)
    have bounded := Nat.le_of_lt (Nat.lt_of_le_of_lt (Text.lengthLeByteLength _) short)
    exact List.mem_map.mpr ⟨p.text.toList, all _ bounded, by simp⟩

end Disk
end NotebookTidy.Storage
