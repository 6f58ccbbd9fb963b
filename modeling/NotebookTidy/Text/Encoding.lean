/-!
Units in which a column of text is counted, and how many of them a character takes. There are only
finitely many texts below a given length.
-/
namespace NotebookTidy.Text

inductive Encoding where
  | utf8
  | utf16
  | utf32
  deriving DecidableEq, Repr

namespace Encoding

def width : Encoding → Char → Nat
  | .utf8, c => c.utf8Size
  | .utf16, c => if c.val < 0x10000 then 1 else 2
  | .utf32, _ => 1

def units (e : Encoding) (text : List Char) : Nat :=
  text.foldr (fun c n => e.width c + n) 0

@[simp] theorem unitsNil (e : Encoding) : e.units [] = 0 := rfl

@[simp] theorem unitsCons (e : Encoding) (c : Char) (text : List Char) :
    e.units (c :: text) = e.width c + e.units text := rfl

theorem unitsAppend (e : Encoding) (a b : List Char) :
    e.units (a ++ b) = e.units a + e.units b := by
  induction a with
  | nil => simp
  | cons c rest ih => rw [List.cons_append, unitsCons, unitsCons, ih, Nat.add_assoc]

theorem widthPos (e : Encoding) (c : Char) : 0 < e.width c := by
  cases e with
  | utf8 => exact c.utf8Size_pos
  | utf16 => simp only [width]; split <;> decide
  | utf32 => exact Nat.one_pos

end Encoding

/-- Length of the UTF-8 form, the unit of every offset in this library. -/
def byteLength (text : List Char) : Nat := Encoding.utf8.units text

@[simp] theorem byteLengthNil : byteLength [] = 0 := rfl

@[simp] theorem byteLengthCons (c : Char) (text : List Char) :
    byteLength (c :: text) = c.utf8Size + byteLength text := Encoding.unitsCons .utf8 c text

@[simp] theorem byteLengthAppend (a b : List Char) :
    byteLength (a ++ b) = byteLength a + byteLength b := Encoding.unitsAppend .utf8 a b

private def allChars : List Char := (List.range 0x110000).map Char.ofNat

private theorem memAllChars (c : Char) : c ∈ allChars := by
  refine List.mem_map.mpr ⟨c.toNat, ?_, Char.ofNat_toNat c⟩
  rw [List.mem_range]
  have h := c.valid
  simp only [UInt32.isValidChar, Nat.isValidChar] at h
  show c.val.toNat < _
  omega

theorem existsBoundedTexts (n : Nat) :
    ∃ held : List (List Char), ∀ text, text.length ≤ n → text ∈ held := by
  induction n with
  | zero =>
    refine ⟨[[]], fun text h => ?_⟩
    simp [List.length_eq_zero_iff.mp (Nat.le_zero.mp h)]
  | succ n ih =>
    obtain ⟨held, all⟩ := ih
    refine ⟨[] :: allChars.flatMap fun c => held.map (c :: ·), fun text h => ?_⟩
    cases text with
    | nil => exact List.mem_cons_self
    | cons c rest =>
      refine List.mem_cons_of_mem _ (List.mem_flatMap.mpr ⟨c, memAllChars c, ?_⟩)
      exact List.mem_map.mpr ⟨rest, all rest (by simpa using h), rfl⟩

theorem lengthLeByteLength (text : List Char) : text.length ≤ byteLength text := by
  induction text with
  | nil => exact Nat.le_refl 0
  | cons c rest ih =>
    have size := Encoding.widthPos .utf8 c
    simp only [byteLength, Encoding.unitsCons, List.length_cons] at *
    omega

end NotebookTidy.Text
