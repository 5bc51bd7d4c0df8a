import Mathlib.Data.List.Basic
import TableImport.Table.Csv

/-! Texts as bytes: reading them back, and the mark of the byte order. -/
namespace TableImport.Csv

theorem toList_loop (bs : ByteArray) (i : Nat) (r : Bytes) :
    ByteArray.toList.loop bs i r = r.reverse ++ bs.data.toList.drop i := by
  fun_induction ByteArray.toList.loop bs i r with
  | case1 i r hi ih =>
    have hlength : i < bs.data.toList.length := by simpa using hi
    have hget : bs.get! i = bs.data.toList[i] := by
      rw [Array.getElem_toList]
      exact getElem!_pos bs.data i hi
    rw [ih, List.drop_eq_getElem_cons hlength]
    simp [hget]
  | case2 i r hi =>
    have hlength : bs.data.toList.length ≤ i := by simpa using hi
    simp [List.drop_eq_nil_of_le hlength]

theorem toList_byteArray (bs : ByteArray) : bs.toList = bs.data.toList := by
  simp [ByteArray.toList, toList_loop]

theorem bytesOf_eq (s : String) : bytesOf s = s.toByteArray.data.toList := by
  rw [bytesOf, toList_byteArray, String.toUTF8_eq_toByteArray]

/-- Texts can be read back from their bytes. -/
theorem textOf?_bytesOf (s : String) : textOf? (bytesOf s) = some s := by
  have hbytes : ByteArray.mk (bytesOf s).toArray = s.toByteArray := by
    rw [bytesOf_eq, Array.toArray_toList]
  have hvalid : s.toByteArray.IsValidUTF8 := s.isValidUTF8
  rw [textOf?, hbytes, String.fromUTF8?, dif_pos hvalid]
  rfl

def byteOrderMark : Char := '\uFEFF'

theorem utf8EncodeChar_byteOrderMark :
    String.utf8EncodeChar byteOrderMark = [0xEF, 0xBB, 0xBF] := by decide

/-- Bytes that start with the mark and with those of a character have the mark for it. -/
theorem eq_byteOrderMark {c : Char} {rest tail : Bytes}
    (h : String.utf8EncodeChar c ++ rest = 0xEF :: 0xBB :: 0xBF :: tail) : c = byteOrderMark := by
  have hmark : (0xEF :: 0xBB :: 0xBF :: tail : Bytes) =
      String.utf8EncodeChar byteOrderMark ++ tail := by
    rw [utf8EncodeChar_byteOrderMark]
    rfl
  have hbytes := congrArg List.toByteArray (h.trans hmark)
  rw [List.toByteArray_append, List.toByteArray_append] at hbytes
  have hdecode := congrArg (fun bs : ByteArray => bs.utf8DecodeChar? 0) hbytes
  simpa only [ByteArray.utf8DecodeChar?_utf8EncodeChar_append, Option.some.injEq] using hdecode

/-- A text whose bytes start with those of the mark starts with the mark. -/
theorem head?_of_byteOrderMark {s : String} {rest tail : Bytes} (hs : bytesOf s ≠ [])
    (h : bytesOf s ++ rest = 0xEF :: 0xBB :: 0xBF :: tail) :
    s.toList.head? = some byteOrderMark := by
  have hbytes : s.toByteArray = s.toList.utf8Encode := String.utf8Encode_toList.symm
  cases hlist : s.toList with
  | nil =>
    rw [bytesOf_eq, hbytes, hlist] at hs
    exact absurd rfl hs
  | cons c cs =>
    rw [bytesOf_eq, hbytes, hlist, List.utf8Encode_cons, List.utf8Encode_singleton] at h
    rw [ByteArray.data_append, Array.toList_append, List.data_toByteArray, List.append_assoc] at h
    rw [List.head?_cons, eq_byteOrderMark h]

theorem dropByteOrderMark_eq {bs : Bytes} (h : ∀ tail, bs ≠ 0xEF :: 0xBB :: 0xBF :: tail) :
    dropByteOrderMark bs = bs := by
  unfold dropByteOrderMark
  split
  · next tail => exact absurd rfl (h tail)
  · rfl

end TableImport.Csv
