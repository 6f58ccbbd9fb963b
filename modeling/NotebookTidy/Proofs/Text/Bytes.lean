import Mathlib.Data.String.Basic
import NotebookTidy.Text.Utf8

/-! Texts as bytes: they come in one order, whether their characters are compared or their bytes,
and the bytes read back as the text. -/
namespace NotebookTidy.Text

/-! The order -/

def bytes (text : List Char) : List UInt8 := text.flatMap String.utf8EncodeChar

theorem bytesCons (c : Char) (rest : List Char) :
    bytes (c :: rest) = String.utf8EncodeChar c ++ bytes rest := List.flatMap_cons

theorem byteLt {a b : Nat} (left : a < 256) (right : b < 256) :
    UInt8.ofNat a < UInt8.ofNat b ↔ a < b := by
  rw [UInt8.lt_iff_toNat_lt, UInt8.toNat_ofNat_of_lt' left, UInt8.toNat_ofNat_of_lt' right]

theorem byteEq {a b : Nat} (left : a < 256) (right : b < 256) :
    UInt8.ofNat a = UInt8.ofNat b ↔ a = b := by
  rw [← UInt8.toNat_inj, UInt8.toNat_ofNat_of_lt' left, UInt8.toNat_ofNat_of_lt' right]

/-- The first byte tells how many follow, and each of these holds six bits more. -/
theorem encodedLt {c d : Char} (lt : c < d) (a b : List UInt8) :
    String.utf8EncodeChar c ++ a < String.utf8EncodeChar d ++ b := by
  have less : c.val.toNat < d.val.toNat := lt
  have most := d.valid
  simp only [UInt32.isValidChar, Nat.isValidChar] at most
  have high : d.val.toNat < 0x110000 := by omega
  clear most lt
  have sixes (n : Nat) : n / 4096 = n / 64 / 64 ∧ n / 262144 = n / 64 / 64 / 64 := by omega
  unfold String.utf8EncodeChar
  generalize c.val.toNat = v at *
  generalize d.val.toNat = w at *
  dsimp only
  split_ifs <;> simp (disch := omega) only [List.cons_append, List.nil_append,
    List.cons_lt_cons_iff, byteLt, byteEq, sixes] <;> omega

theorem bytesLt {a b : List Char} (lt : a < b) : bytes a < bytes b := by
  induction a generalizing b with
  | nil =>
    cases b with
    | nil => exact absurd lt (List.lt_irrefl _)
    | cons d rest =>
      have filled : String.utf8EncodeChar d ≠ [] :=
        List.ne_nil_of_length_pos (String.length_utf8EncodeChar d ▸ d.utf8Size_pos)
      rw [bytesCons]
      obtain ⟨first, more, encoded⟩ := List.exists_cons_of_ne_nil filled
      rw [encoded]
      exact List.nil_lt_cons first _
  | cons c rest ih =>
    cases b with
    | nil => exact absurd lt (List.not_lt_nil _)
    | cons d more =>
      rw [bytesCons, bytesCons]
      rcases List.cons_lt_cons_iff.mp lt with before | ⟨rfl, inner⟩
      · exact encodedLt before _ _
      · exact List.append_left_lt (ih inner)

theorem bytesLe {a b : List Char} : bytes a ≤ bytes b ↔ a ≤ b := by
  constructor
  · intro inOrder
    exact not_lt.mp fun after => inOrder (bytesLt after)
  · intro inOrder after
    rcases lt_or_eq_of_le inOrder with before | rfl
    · exact List.lt_irrefl _ (List.lt_trans (bytesLt before) after)
    · exact List.lt_irrefl _ after

/-! Reading back -/

theorem byteNat {n : Nat} (small : n < 256) : (UInt8.ofNat n).toNat = n :=
  UInt8.toNat_ofNat_of_lt' small

theorem continues {b : UInt8} (bounds : 0x80 ≤ b.toNat ∧ b.toNat ≤ 0xBF) :
    isContinuation b = true := by
  rw [isContinuation, Bool.and_eq_true, decide_eq_true_iff, decide_eq_true_iff]
  exact bounds

theorem firstCharTwo {a b : UInt8} (lead : 0xC2 ≤ a.toNat ∧ a.toNat ≤ 0xDF)
    (next : 0x80 ≤ b.toNat ∧ b.toNat ≤ 0xBF) (rest : List UInt8) :
    firstChar (a :: b :: rest) = .ok (Char.ofNat ((a.toNat - 0xC0) * 64 + low b), 2) := by
  have inside : 0xC2 ≤ a ∧ a ≤ 0xDF := lead
  have above : ¬ a < 0x80 := fun less => by
    have : a.toNat < 0x80 := less
    omega
  simp only [firstChar, if_neg above, inside, decide_true, Bool.and_self, if_true, continues next]

theorem fitsSecond {a b : UInt8} (bounds : 0x80 ≤ b.toNat ∧ b.toNat ≤ 0xBF)
    (longThree : a.toNat = 0xE0 → 0xA0 ≤ b.toNat) (plain : a.toNat = 0xED → b.toNat ≤ 0x9F)
    (longFour : a.toNat = 0xF0 → 0x90 ≤ b.toNat) (last : a.toNat = 0xF4 → b.toNat ≤ 0x8F) :
    secondFits a b = true := by
  simp only [secondFits, isContinuation, ← UInt8.toNat_inj, UInt8.le_iff_toNat_le,
    UInt8.reduceToNat]
  split_ifs <;> simp only [Bool.and_eq_true, decide_eq_true_iff] <;> omega

theorem firstCharThree {a b c : UInt8} (lead : 0xE0 ≤ a.toNat ∧ a.toNat ≤ 0xEF)
    (second : 0x80 ≤ b.toNat ∧ b.toNat ≤ 0xBF) (long : a.toNat = 0xE0 → 0xA0 ≤ b.toNat)
    (plain : a.toNat = 0xED → b.toNat ≤ 0x9F)
    (third : 0x80 ≤ c.toNat ∧ c.toNat ≤ 0xBF) (rest : List UInt8) :
    firstChar (a :: b :: c :: rest) =
      .ok (Char.ofNat (((a.toNat - 0xE0) * 64 + low b) * 64 + low c), 3) := by
  have fits := fitsSecond second long plain (by omega) (by omega)
  have one : ¬ a.toNat < 0x80 := by omega
  have two : ¬ (0xC2 ≤ a.toNat ∧ a.toNat ≤ 0xDF) := by omega
  simp only [firstChar, UInt8.lt_iff_toNat_lt, UInt8.le_iff_toNat_le, UInt8.reduceToNat,
    Bool.and_eq_true, decide_eq_true_iff, if_neg one, if_neg two, if_pos lead, fits,
    continues third, Bool.not_true, Bool.false_eq_true, if_false, if_true]

theorem firstCharFour {a b c d : UInt8} (lead : 0xF0 ≤ a.toNat ∧ a.toNat ≤ 0xF4)
    (second : 0x80 ≤ b.toNat ∧ b.toNat ≤ 0xBF) (long : a.toNat = 0xF0 → 0x90 ≤ b.toNat)
    (last : a.toNat = 0xF4 → b.toNat ≤ 0x8F) (third : 0x80 ≤ c.toNat ∧ c.toNat ≤ 0xBF)
    (fourth : 0x80 ≤ d.toNat ∧ d.toNat ≤ 0xBF) (rest : List UInt8) :
    firstChar (a :: b :: c :: d :: rest) =
      .ok (Char.ofNat ((((a.toNat - 0xF0) * 64 + low b) * 64 + low c) * 64 + low d), 4) := by
  have fits := fitsSecond second (by omega) (by omega) long last
  have one : ¬ a.toNat < 0x80 := by omega
  have two : ¬ (0xC2 ≤ a.toNat ∧ a.toNat ≤ 0xDF) := by omega
  have three : ¬ (0xE0 ≤ a.toNat ∧ a.toNat ≤ 0xEF) := by omega
  simp only [firstChar, UInt8.lt_iff_toNat_lt, UInt8.le_iff_toNat_le, UInt8.reduceToNat,
    Bool.and_eq_true, decide_eq_true_iff, if_neg one, if_neg two, if_neg three, if_pos lead, fits,
    continues third, continues fourth, Bool.not_true, Bool.false_eq_true, if_false, if_true]

theorem firstCharEncoded (c : Char) (rest : List UInt8) :
    firstChar (String.utf8EncodeChar c ++ rest) = .ok (c, c.utf8Size) := by
  have valid := c.valid
  simp only [UInt32.isValidChar, Nat.isValidChar] at valid
  have same : Char.ofNat c.val.toNat = c := Char.ofNat_toNat c
  have size : c.utf8Size = (String.utf8EncodeChar c).length :=
    (String.length_utf8EncodeChar c).symm
  rw [size]
  unfold String.utf8EncodeChar
  generalize c.val.toNat = v at *
  dsimp only
  split_ifs with one two three
  · have small : (UInt8.ofNat v).toNat = v := byteNat (by omega)
    have lead : (UInt8.ofNat v) < 0x80 := by
      rw [UInt8.lt_iff_toNat_lt, small]
      exact Nat.lt_succ_of_le one
    rw [List.singleton_append]
    simp only [firstChar, if_pos lead, small, same]
    rfl
  · rw [List.cons_append, List.singleton_append, firstCharTwo]
    · simp (disch := omega) only [low, byteNat]
      rw [show (v / 64 % 32 + 192 - 0xC0) * 64 + (v % 64 + 128) % 64 = v by omega, same]
      rfl
    all_goals simp (disch := omega) only [byteNat]; omega
  · rw [List.cons_append, List.cons_append, List.singleton_append, firstCharThree]
    · simp (disch := omega) only [low, byteNat]
      rw [show ((v / 4096 % 16 + 224 - 0xE0) * 64 + (v / 64 % 64 + 128) % 64) * 64 +
        (v % 64 + 128) % 64 = v by omega, same]
      rfl
    all_goals simp (disch := omega) only [byteNat]; omega
  · rw [List.cons_append, List.cons_append, List.cons_append, List.singleton_append,
      firstCharFour]
    · simp (disch := omega) only [low, byteNat]
      rw [show (((v / 262144 % 8 + 240 - 0xF0) * 64 + (v / 4096 % 64 + 128) % 64) * 64 +
        (v / 64 % 64 + 128) % 64) * 64 + (v % 64 + 128) % 64 = v by omega, same]
      rfl
    all_goals simp (disch := omega) only [byteNat]; omega

theorem shownBytes (text : List Char) {fuel : Nat} (enough : (bytes text).length ≤ fuel) :
    shownFrom fuel (bytes text) = text := by
  induction text generalizing fuel with
  | nil => cases fuel <;> rfl
  | cons c rest ih =>
    have encoded := firstCharEncoded c (bytes rest)
    have size : (String.utf8EncodeChar c).length = c.utf8Size := String.length_utf8EncodeChar c
    have positive := c.utf8Size_pos
    rw [bytesCons, List.length_append, size] at enough
    obtain ⟨fuel, rfl⟩ : ∃ n, fuel = n + 1 := ⟨fuel - 1, by omega⟩
    have filled : String.utf8EncodeChar c ++ bytes rest ≠ [] := by
      refine List.append_ne_nil_of_left_ne_nil (List.ne_nil_of_length_pos ?_) _
      rwa [size]
    obtain ⟨first, more, whole⟩ := List.exists_cons_of_ne_nil filled
    rw [bytesCons, whole, shownFrom, ← whole, encoded]
    · dsimp only
      rw [← size, List.drop_left, ih (by omega)]
    · exact List.cons_ne_nil _ _

theorem shownEncoded (text : String) : shown (encodeUtf8 text) = text := by
  have whole : shownFrom (encodeUtf8 text).length (encodeUtf8 text) = text.toList :=
    shownBytes text.toList (Nat.le_refl _)
  rw [shown, whole, String.ofList_toList]

end NotebookTidy.Text
