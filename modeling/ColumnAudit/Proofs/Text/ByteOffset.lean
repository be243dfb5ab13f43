import ColumnAudit.Text.ByteOffset

/-! # Cuts between characters

The offset behind a text is its size in bytes, so what stands between two other texts is cut out between
the size of the first of them and that size with its own (`slice_append`). No other cut succeeds
(`slice_eq_ok_iff`).
-/

namespace ColumnAudit.Text
set_option autoImplicit false

theorem isValid_append (before after : String) :
    String.Pos.Raw.IsValid (before ++ after) ⟨before.utf8ByteSize⟩ :=
  String.Pos.Raw.isValid_iff_exists_append.2 ⟨before, after, rfl, rfl⟩

theorem slice_append (before piece after : String) :
    slice (before ++ (piece ++ after)) before.utf8ByteSize
      (before.utf8ByteSize + piece.utf8ByteSize) = .ok piece := by
  have hsize : (before ++ (piece ++ after)).utf8ByteSize =
      before.utf8ByteSize + (piece.utf8ByteSize + after.utf8ByteSize) := by
    rw [String.utf8ByteSize_append, String.utf8ByteSize_append]
  have hstart := isValid_append before (piece ++ after)
  have hstop := isValid_append (before ++ piece) after
  rw [String.append_assoc, String.utf8ByteSize_append] at hstop
  rw [slice, if_neg (by omega), if_neg (by omega), dif_pos ⟨hstart, hstop⟩]
  apply congrArg Except.ok
  apply String.toByteArray_inj.1
  rw [String.toByteArray_extract, String.toByteArray_append, String.toByteArray_append]
  show (before.toByteArray ++ _).extract (before.toByteArray.size + 0)
    (before.toByteArray.size + piece.toByteArray.size) = _
  rw [ByteArray.extract_append_size_add]
  exact ByteArray.extract_append_eq_left rfl

/-- Two offsets in their order part a text in three. -/
theorem exists_parts {t : String} {start stop : Nat} (h : start ≤ stop)
    (hstart : String.Pos.Raw.IsValid t ⟨start⟩) (hstop : String.Pos.Raw.IsValid t ⟨stop⟩) :
    ∃ before piece after, t = before ++ (piece ++ after) ∧ start = before.utf8ByteSize ∧
      stop = before.utf8ByteSize + piece.utf8ByteSize := by
  obtain ⟨before, rest, rfl, hbefore⟩ := String.Pos.Raw.isValid_iff_exists_append.1 hstart
  obtain rfl : start = before.utf8ByteSize := congrArg String.Pos.Raw.byteIdx hbefore
  rcases String.Pos.Raw.isValid_append.1 hstop with hstop | ⟨-, hstop⟩
  · have hle : stop ≤ before.utf8ByteSize := hstop.le_utf8ByteSize
    refine ⟨before, "", rest, by rw [String.empty_append], rfl, ?_⟩
    rw [String.utf8ByteSize_empty]
    omega
  · obtain ⟨piece, after, rfl, hpiece⟩ := String.Pos.Raw.isValid_iff_exists_append.1 hstop
    have hsize : stop - before.utf8ByteSize = piece.utf8ByteSize :=
      congrArg String.Pos.Raw.byteIdx hpiece
    exact ⟨before, piece, after, rfl, rfl, by omega⟩

theorem slice_eq_ok_iff {t piece : String} {start stop : Nat} :
    slice t start stop = .ok piece ↔
      ∃ before after, t = before ++ (piece ++ after) ∧ start = before.utf8ByteSize ∧
        stop = before.utf8ByteSize + piece.utf8ByteSize := by
  constructor
  · intro h
    have hcut := h
    unfold slice at hcut
    split at hcut
    · cases hcut
    split at hcut
    · cases hcut
    rename_i horder
    split at hcut
    · rename_i hvalid
      obtain ⟨before, found, after, rfl, rfl, rfl⟩ :=
        exists_parts (Nat.not_lt.1 horder) hvalid.1 hvalid.2
      rw [slice_append] at h
      cases h
      exact ⟨before, after, rfl, rfl, rfl⟩
    · cases hcut
  · rintro ⟨before, after, rfl, rfl, rfl⟩
    exact slice_append before piece after

theorem slice_front (piece after : String) :
    slice (piece ++ after) 0 piece.utf8ByteSize = .ok piece := by
  refine slice_eq_ok_iff.2 ⟨"", after, ?_, rfl, ?_⟩
  · rw [String.empty_append]
  · rw [String.utf8ByteSize_empty, Nat.zero_add]

end ColumnAudit.Text
