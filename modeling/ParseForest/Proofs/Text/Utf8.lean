import ParseForest.Proofs.Text.Line

/-! # The lines of encoded text

A text is divided into lines before it is encoded, or its bytes are.  Both give the same lines
(`byteLines_utf8`): a line feed and a carriage return are each encoded as one byte, which stands in
the encoding of no other character (`isMark_feed`, `isMark_return`), and this is all that dividing
depends on (`linesBy_flatMap`).  The other way round, bytes of which each line is encoded text are
themselves encoded text (`IsUtf8.of_byteLines`). -/

namespace ParseForest.Text

/-! ### Encodings that keep lines apart -/

section

variable {α β : Type} [DecidableEq α] [DecidableEq β] {encode : α → List β}

/-- The unit is encoded as the code alone, and no other unit has the code in its encoding. -/
structure IsMark (encode : α → List β) (unit : α) (code : β) : Prop where
  encode_eq : encode unit = [code]
  eq_of_mem : ∀ other, code ∈ encode other → other = unit

theorem splitOn_append_of_not_mem {sep : β} {codes rest first : List β} {pieces : List (List β)}
    (hsep : sep ∉ codes) (hrest : rest.splitOn sep = first :: pieces) :
    (codes ++ rest).splitOn sep = (codes ++ first) :: pieces := by
  induction codes with
  | nil => exact hrest
  | cons code codes ih =>
      rw [List.mem_cons, not_or] at hsep
      have hne : (code == sep) = false := beq_false_of_ne (Ne.symm hsep.1)
      rw [List.cons_append, List.splitOn_cons_eq_if_modifyHead, ih hsep.2]
      simp [hne]

theorem splitOn_flatMap {sep : α} {code : β} (hmark : IsMark encode sep code) (units : List α) :
    (units.flatMap encode).splitOn code = (units.splitOn sep).map (List.flatMap encode) := by
  induction units with
  | nil => simp
  | cons unit units ih =>
      obtain ⟨first, pieces, hpieces⟩ := List.exists_cons_of_ne_nil (List.splitOn_ne_nil sep units)
      rw [hpieces, List.map_cons] at ih
      rw [List.flatMap_cons, List.splitOn_cons_eq_if_modifyHead, hpieces]
      by_cases hunit : unit = sep
      · subst hunit
        rw [hmark.encode_eq, List.singleton_append, List.splitOn_cons_eq_if_modifyHead, ih]
        simp
      · have hnot : code ∉ encode unit := fun hmem => hunit (hmark.eq_of_mem unit hmem)
        rw [splitOn_append_of_not_mem hnot ih]
        simp [hunit]

theorem dropReturn_flatMap {ret : α} {code : β} (hmark : IsMark encode ret code)
    (hne : ∀ unit, encode unit ≠ []) (line : List α) :
    dropReturn code (line.flatMap encode) = (dropReturn ret line).flatMap encode := by
  rcases List.eq_nil_or_concat line with rfl | ⟨before, last, rfl⟩
  · rfl
  · rw [List.concat_eq_append]
    by_cases hlast : last = ret
    · subst hlast
      simp [dropReturn, hmark.encode_eq]
    · have hnot : (encode last).getLast? ≠ some code := fun h =>
        hlast (hmark.eq_of_mem last (List.mem_of_getLast? h))
      simp [dropReturn, hlast, List.getLast?_append, hne last, hnot]

theorem linesOfPieces_flatMap {ret : α} {code : β} (hmark : IsMark encode ret code)
    (hne : ∀ unit, encode unit ≠ []) (pieces : List (List α)) :
    linesOfPieces code (pieces.map (List.flatMap encode)) =
      (linesOfPieces ret pieces).map (List.flatMap encode) := by
  induction pieces with
  | nil => rfl
  | cons piece pieces ih =>
      cases pieces with
      | nil =>
          cases piece with
          | nil => rfl
          | cons unit units => simp [linesOfPieces, hne unit]
      | cons next rest =>
          rw [List.map_cons] at ih
          rw [List.map_cons, List.map_cons, linesOfPieces, linesOfPieces, ih, List.map_cons,
            dropReturn_flatMap hmark hne]

theorem linesBy_flatMap {feed ret : α} {feedCode retCode : β} (hfeed : IsMark encode feed feedCode)
    (hret : IsMark encode ret retCode) (hne : ∀ unit, encode unit ≠ []) (units : List α) :
    linesBy feedCode retCode (units.flatMap encode) =
      (linesBy feed ret units).map (List.flatMap encode) := by
  unfold linesBy
  rw [splitOn_flatMap hfeed, linesOfPieces_flatMap hret hne]

end

/-! ### Bytes -/

theorem le_toNat_ofNat {value mark : Nat} (hmark : 128 ≤ mark) (hvalue : value + mark < 256) :
    128 ≤ (UInt8.ofNat (value + mark)).toNat := by
  rw [UInt8.toNat_ofNat']
  omega

/-- A byte below 128 stands in the encoding of one character only. -/
theorem eq_of_mem_utf8EncodeChar {c : Char} {byte : UInt8} (hbyte : byte.toNat < 128)
    (hmem : byte ∈ String.utf8EncodeChar c) : c.toNat = byte.toNat := by
  by_cases hone : c.val.toNat ≤ 0x7f
  · rw [String.utf8EncodeChar, if_pos hone, List.mem_singleton] at hmem
    rw [hmem, UInt8.toNat_ofNat', Nat.mod_eq_of_lt (by omega), Char.toNat_val]
  · -- no byte of a longer encoding is below 128
    have hhigh : ∀ other ∈ String.utf8EncodeChar c, 128 ≤ other.toNat := by
      rw [String.utf8EncodeChar, if_neg hone]
      split
      · simp only [List.mem_cons, List.not_mem_nil, or_false, forall_eq_or_imp, forall_eq]
        refine ⟨?_, ?_⟩ <;> apply le_toNat_ofNat <;> omega
      · split
        · simp only [List.mem_cons, List.not_mem_nil, or_false, forall_eq_or_imp, forall_eq]
          refine ⟨?_, ?_, ?_⟩ <;> apply le_toNat_ofNat <;> omega
        · simp only [List.mem_cons, List.not_mem_nil, or_false, forall_eq_or_imp, forall_eq]
          refine ⟨?_, ?_, ?_, ?_⟩ <;> apply le_toNat_ofNat <;> omega
    exact absurd (hhigh byte hmem) (Nat.not_le.mpr hbyte)

theorem isMark_feed : IsMark String.utf8EncodeChar '\n' 10 := by
  refine ⟨by decide, fun c hmem => ?_⟩
  exact Char.toNat_inj.mp (eq_of_mem_utf8EncodeChar (by decide) hmem)

theorem isMark_return : IsMark String.utf8EncodeChar '\r' 13 := by
  refine ⟨by decide, fun c hmem => ?_⟩
  exact Char.toNat_inj.mp (eq_of_mem_utf8EncodeChar (by decide) hmem)

/-- The bytes of a text. -/
def utf8 (text : String) : List UInt8 :=
  text.toUTF8.data.toList

theorem utf8_ofList (cs : List Char) : utf8 (String.ofList cs) = cs.flatMap String.utf8EncodeChar := by
  simp [utf8, List.utf8Encode]

theorem utf8_injective {text other : String} (h : utf8 text = utf8 other) : text = other :=
  String.toByteArray_inj.mp (ByteArray.ext (Array.toList_inj.mp h))

theorem utf8_append (text more : String) : utf8 (text ++ more) = utf8 text ++ utf8 more := by
  simp [utf8]

/-- **The lines of a text are the lines of its bytes.** -/
theorem byteLines_utf8 (text : String) : byteLines (utf8 text) = (lines text).map utf8 := by
  unfold byteLines lines
  rw [← String.ofList_toList (s := text), utf8_ofList,
    linesBy_flatMap isMark_feed isMark_return fun _ => String.utf8EncodeChar_ne_nil]
  simp [utf8_ofList]

/-! ### Bytes that encode a text -/

/-- The bytes encode some text. -/
def IsUtf8 (bytes : List UInt8) : Prop :=
  ∃ text, utf8 text = bytes

theorem isUtf8_nil : IsUtf8 [] :=
  ⟨"", rfl⟩

theorem IsUtf8.append {bytes more : List UInt8} (h : IsUtf8 bytes) (hmore : IsUtf8 more) :
    IsUtf8 (bytes ++ more) := by
  obtain ⟨text, rfl⟩ := h
  obtain ⟨rest, rfl⟩ := hmore
  exact ⟨text ++ rest, utf8_append text rest⟩

theorem IsUtf8.of_dropReturn {piece : List UInt8} (h : IsUtf8 (dropReturn 13 piece)) :
    IsUtf8 piece := by
  unfold dropReturn at h
  split at h
  · rename_i hlast
    obtain ⟨before, rfl⟩ := List.getLast?_eq_some_iff.mp hlast
    have hret : IsUtf8 [13] := ⟨"\r", by decide⟩
    rw [List.dropLast_concat] at h
    exact h.append hret
  · exact h

theorem isUtf8_of_linesOfPieces {pieces : List (List UInt8)}
    (h : ∀ line ∈ linesOfPieces 13 pieces, IsUtf8 line) : ∀ piece ∈ pieces, IsUtf8 piece := by
  induction pieces with
  | nil => simp
  | cons piece pieces ih =>
      cases pieces with
      | nil =>
          cases piece with
          | nil => simp [isUtf8_nil]
          | cons byte bytes => simpa [linesOfPieces] using h
      | cons next rest =>
          rw [linesOfPieces, List.forall_mem_cons] at h
          exact List.forall_mem_cons.mpr ⟨h.1.of_dropReturn, ih h.2⟩

theorem IsUtf8.of_byteLines {bytes : List UInt8} (h : ∀ line ∈ byteLines bytes, IsUtf8 line) :
    IsUtf8 bytes := by
  have hfeed : IsUtf8 [10] := ⟨"\n", by decide⟩
  have hjoined : [10].intercalate (bytes.splitOn 10) = bytes := List.intercalate_splitOn 10
  rw [← hjoined]
  refine intercalate_induction (fun piece rest hpiece hrest => ?_) (List.splitOn_ne_nil 10 bytes)
    (isUtf8_of_linesOfPieces h)
  exact (hpiece.append hfeed).append hrest

end ParseForest.Text
