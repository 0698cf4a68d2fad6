import Dpll.Proofs.Text.Words
import Dpll.Text.Lines

/-! Lines of bytes, and of encoded texts. What the lines are is said without computing them
(`Text.lines_eq_iff`). A byte below 128 stands for a character by itself and is no part of another one
(`Text.eq_of_mem_utf8EncodeChar`), so the lines of the bytes are the lines of the characters
(`Text.lines_encodeChars`), and each of them can be decoded by itself (`Text.decode?_encodeChars`). -/

namespace Dpll

/-- A list of which every part is ended by a separator is split into the parts and an empty rest. -/
theorem splitOnP_flatMap_concat {α : Type u} {p : α → Bool} {sep : α} (hsep : p sep = true)
    {parts : List (List α)} (h : ∀ part ∈ parts, ∀ a ∈ part, p a = false) :
    (parts.flatMap (· ++ [sep])).splitOnP p = parts ++ [[]] := by
  induction parts with
  | nil => rfl
  | cons part parts ih =>
    obtain ⟨hpart, hparts⟩ := List.forall_mem_cons.mp h
    rw [List.flatMap_cons, List.append_assoc, List.singleton_append,
      List.splitOnP_append_cons_of_forall_mem hpart sep hsep, ih hparts]
    rfl

/-- The loop puts the bytes from a place on after those it has taken. -/
theorem toList_loop_eq (bytes : ByteArray) (i : Nat) (taken : List UInt8) :
    ByteArray.toList.loop bytes i taken = taken.reverse ++ bytes.data.toList.drop i := by
  fun_induction ByteArray.toList.loop bytes i taken with
  | case1 i taken hlt ih =>
    have hlength : i < bytes.data.toList.length := hlt
    have hget : bytes.get! i = bytes.data.toList[i] :=
      (getElem!_pos bytes.data i hlt).trans (Array.getElem_toList hlt).symm
    have hnext : bytes.data.toList.drop i = bytes.get! i :: bytes.data.toList.drop (i + 1) := by
      rw [List.drop_eq_getElem_cons hlength, hget]
    rw [ih, hnext, List.reverse_cons, List.append_assoc, List.singleton_append]
  | case2 i taken hge =>
    have hlength : bytes.data.toList.length ≤ i := Nat.le_of_not_lt hge
    rw [List.drop_eq_nil_of_le hlength, List.append_nil]

theorem toList_eq_toList_data (bytes : ByteArray) : bytes.toList = bytes.data.toList := by
  simp [ByteArray.toList, toList_loop_eq]

namespace Text

variable {c : Char} {cs : List Char} {b : UInt8}

/-- The bytes of the characters in UTF-8. -/
def encodeChars (cs : List Char) : List UInt8 := cs.flatMap String.utf8EncodeChar

/-- Drops a carriage return at the end. -/
def dropReturnChar (cs : List Char) : List Char :=
  if cs.getLast? = some '\r' then cs.dropLast else cs

theorem toByteArray_ofList (cs : List Char) :
    (String.ofList cs).toByteArray = ⟨(encodeChars cs).toArray⟩ := by
  rw [String.toByteArray_ofList, List.utf8Encode]
  refine ByteArray.ext (Array.toList_inj.mp ?_)
  rw [List.toList_data_toByteArray, encodeChars]

theorem encode_eq (text : String) : encode text = encodeChars text.toList := by
  have h := toByteArray_ofList text.toList
  rw [String.ofList_toList] at h
  rw [encode, h, toList_eq_toList_data]

theorem decode?_encodeChars (cs : List Char) : decode? (encodeChars cs) = some cs := by
  have hvalid := (String.ofList cs).isValidUTF8
  have htext : String.fromUTF8 (String.ofList cs).toByteArray hvalid = String.ofList cs := rfl
  rw [decode?, ← toByteArray_ofList, String.fromUTF8?, dif_pos hvalid, htext, Option.map_some,
    String.toList_ofList]

theorem decode?_eq_some_iff {bytes : List UInt8} : decode? bytes = some cs ↔ bytes = encodeChars cs := by
  constructor
  · intro h
    obtain ⟨s, hs, rfl⟩ := Option.map_eq_some_iff.mp h
    have hbytes : s.toByteArray = ⟨bytes.toArray⟩ := by
      rw [String.fromUTF8?] at hs
      split at hs
      · next hvalid =>
        obtain rfl := Option.some.inj hs
        rfl
      · cases hs
    rw [← encode_eq, encode, toList_eq_toList_data, hbytes]
  · rintro rfl
    exact decode?_encodeChars cs

/-- All bytes of a character beyond ASCII have their highest bit set. -/
theorem toNat_of_mem_utf8EncodeChar (h : b ∈ String.utf8EncodeChar c) :
    b.toNat = c.toNat ∨ 128 ≤ b.toNat := by
  have hc : c.toNat = c.val.toNat := rfl
  rw [String.utf8EncodeChar] at h
  split at h
  · next hle =>
    obtain rfl := List.mem_singleton.mp h
    exact .inl (by rw [UInt8.toNat_ofNat']; omega)
  · right
    split at h
    · simp only [List.mem_cons, List.not_mem_nil, or_false] at h
      rcases h with rfl | rfl <;> rw [UInt8.toNat_ofNat'] <;> omega
    split at h
    · simp only [List.mem_cons, List.not_mem_nil, or_false] at h
      rcases h with rfl | rfl | rfl <;> rw [UInt8.toNat_ofNat'] <;> omega
    · simp only [List.mem_cons, List.not_mem_nil, or_false] at h
      rcases h with rfl | rfl | rfl | rfl <;> rw [UInt8.toNat_ofNat'] <;> omega

theorem eq_of_mem_utf8EncodeChar {d : Char} (h : b ∈ String.utf8EncodeChar c)
    (hb : b.toNat = d.toNat) (hd : d.toNat < 128) : c = d := by
  rcases toNat_of_mem_utf8EncodeChar h with hc | hc
  · exact Char.toNat_inj.mp (hc.symm.trans hb)
  · omega

theorem encodeChars_append (cs cs' : List Char) :
    encodeChars (cs ++ cs') = encodeChars cs ++ encodeChars cs' :=
  List.flatMap_append

theorem encode_append (text text' : String) : encode (text ++ text') = encode text ++ encode text' := by
  rw [encode_eq, encode_eq, encode_eq, String.toList_append, encodeChars_append]

theorem words_dropReturnChar (cs : List Char) : words (dropReturnChar cs) = words cs := by
  rcases List.eq_nil_or_concat cs with rfl | ⟨cs, c, rfl⟩
  · rfl
  · rw [List.concat_eq_append, dropReturnChar, List.getLast?_concat]
    split
    · next hc =>
      obtain rfl := Option.some.inj hc
      rw [List.dropLast_concat, words_append_cons cs [] (by decide), words_nil, List.append_nil]
    · rfl

theorem dropReturn_encodeChars (cs : List Char) :
    dropReturn (encodeChars cs) = encodeChars (dropReturnChar cs) := by
  rcases List.eq_nil_or_concat cs with rfl | ⟨cs, c, rfl⟩
  · rfl
  · rw [List.concat_eq_append, dropReturn, dropReturnChar, encodeChars_append, List.getLast?_concat]
    by_cases hc : c = '\r'
    · have hreturn : encodeChars ['\r'] = [0x0D] := rfl
      rw [hc, hreturn, List.getLast?_concat, if_pos rfl, if_pos rfl, List.dropLast_concat,
        List.dropLast_concat]
    · have hbytes : encodeChars [c] = String.utf8EncodeChar c := List.flatMap_singleton ..
      obtain ⟨b, hb⟩ := Option.ne_none_iff_exists'.mp
        (mt List.getLast?_eq_none_iff.mp (String.utf8EncodeChar_ne_nil (c := c)))
      have hne : b ≠ 0x0D := by
        rintro rfl
        exact hc (eq_of_mem_utf8EncodeChar (List.mem_of_getLast? hb) (by decide) (by decide))
      rw [List.getLast?_append, hbytes, hb, Option.some_or, if_neg (by simpa using hne),
        if_neg (by simpa using hc), encodeChars_append, hbytes]

/-- A carriage return at the end is a character by itself. -/
theorem decode?_concat_return (line : List UInt8) :
    decode? (line ++ [0x0D]) = (decode? line).map (· ++ ['\r']) := by
  ext cs
  rw [decode?_eq_some_iff, Option.map_eq_some_iff]
  constructor
  · intro h
    have hdrop : line = encodeChars (dropReturnChar cs) := by
      rw [← dropReturn_encodeChars, ← h, dropReturn, List.getLast?_concat, if_pos rfl,
        List.dropLast_concat]
    refine ⟨dropReturnChar cs, decode?_eq_some_iff.mpr hdrop, ?_⟩
    rw [dropReturnChar] at hdrop ⊢
    split at hdrop
    · next hlast =>
      obtain ⟨ds, rfl⟩ := List.getLast?_eq_some_iff.mp hlast
      rw [if_pos hlast, List.dropLast_concat]
    · exact absurd (hdrop.trans h.symm) (by simp)
  · rintro ⟨ds, hds, rfl⟩
    rw [decode?_eq_some_iff.mp hds, encodeChars_append]
    rfl

/-- What a line says, without the blanks at its ends. -/
def trimmed? (line : List UInt8) : Option (List Char) := (decode? line).map trim

theorem trimmed?_dropReturn (line : List UInt8) : trimmed? (dropReturn line) = trimmed? line := by
  rcases List.eq_nil_or_concat line with rfl | ⟨line, b, rfl⟩
  · rfl
  · rw [List.concat_eq_append, dropReturn, List.getLast?_concat]
    split
    · next hb =>
      obtain rfl := Option.some.inj hb
      have htrim : trim ∘ (· ++ ['\r']) = trim := funext fun cs => trim_concat cs (by decide)
      rw [List.dropLast_concat, trimmed?, trimmed?, decode?_concat_return, Option.map_map, htrim]
    · rfl

theorem lineFeed_notMem_encodeChars (h : '\n' ∉ cs) :
    ∀ b ∈ encodeChars cs, (b == 0x0A) = false := by
  intro b hmem
  obtain ⟨c, hc, hb⟩ := List.mem_flatMap.mp hmem
  rw [beq_eq_false_iff_ne]
  rintro rfl
  exact h (eq_of_mem_utf8EncodeChar (d := '\n') hb rfl (by decide) ▸ hc)

theorem encodeChars_flatMap {α : Type u} (f : α → List Char) (as : List α) :
    encodeChars (as.flatMap f) = as.flatMap fun a => encodeChars (f a) :=
  List.flatMap_assoc

theorem lines_append_cons {line : List UInt8} (h : ∀ b ∈ line, (b == 0x0A) = false)
    (rest : List UInt8) : lines (line ++ 0x0A :: rest) = dropReturn line :: lines rest := by
  obtain ⟨piece, pieces, hpieces⟩ :=
    List.exists_cons_of_ne_nil (List.splitOnP_ne_nil (· == 0x0A) rest)
  rw [lines, lines, List.splitOnP_append_cons_of_forall_mem h 0x0A (by decide), hpieces]
  rfl

/-- The bytes are these lines: each is ended by a line feed, or by a carriage return and a line feed,
and a rest that is not ended is a line if there is one. -/
inductive InLines : List UInt8 → List (List UInt8) → Prop
  | nil : InLines [] []
  | rest {line : List UInt8} (hne : line ≠ []) (hline : 0x0A ∉ line) : InLines line [line]
  | lineFeed {line rest : List UInt8} {ls : List (List UInt8)} (hline : 0x0A ∉ line)
      (hreturn : line.getLast? ≠ some 0x0D) (h : InLines rest ls) :
      InLines (line ++ 0x0A :: rest) (line :: ls)
  | returnLineFeed {line rest : List UInt8} {ls : List (List UInt8)} (hline : 0x0A ∉ line)
      (h : InLines rest ls) : InLines (line ++ 0x0D :: 0x0A :: rest) (line :: ls)

theorem lineFeed_beq {line : List UInt8} (h : 0x0A ∉ line) : ∀ b ∈ line, (b == 0x0A) = false :=
  fun _ hb => beq_eq_false_iff_ne.mpr fun heq => h (heq ▸ hb)

theorem lines_of_notMem {line : List UInt8} (h : 0x0A ∉ line) :
    lines line = [line].filter fun piece => !piece.isEmpty := by
  rw [lines, List.splitOnP_eq_singleton (lineFeed_beq h)]
  rfl

theorem InLines.lines_eq {bytes : List UInt8} {ls : List (List UInt8)} (h : InLines bytes ls) :
    lines bytes = ls := by
  induction h with
  | nil => rfl
  | rest hne hline =>
    rw [lines_of_notMem hline]
    simp [hne]
  | lineFeed hline hreturn _ ih =>
    rw [lines_append_cons (lineFeed_beq hline), ih, dropReturn, if_neg hreturn]
  | @returnLineFeed line rest ls hline _ ih =>
    have hend : 0x0A ∉ line ++ [0x0D] := by simp [hline]
    have hsplit : line ++ 0x0D :: 0x0A :: rest = line ++ [0x0D] ++ 0x0A :: rest := by simp
    rw [hsplit, lines_append_cons (lineFeed_beq hend), ih, dropReturn, List.getLast?_concat,
      if_pos rfl, List.dropLast_concat]

theorem inLines_lines (bytes : List UInt8) : InLines bytes (lines bytes) := by
  by_cases hmem : 0x0A ∈ bytes
  · obtain ⟨line, rest, hbytes, hline⟩ := List.eq_append_cons_of_mem hmem
    have hrest := inLines_lines rest
    rw [hbytes, lines_append_cons (lineFeed_beq hline), dropReturn]
    split
    · next hreturn =>
      obtain ⟨line, rfl⟩ := List.getLast?_eq_some_iff.mp hreturn
      rw [List.dropLast_concat, List.append_assoc]
      exact .returnLineFeed (fun h => hline (List.mem_append_left _ h)) hrest
    · next hreturn => exact .lineFeed hline hreturn hrest
  · rw [lines_of_notMem hmem]
    cases bytes with
    | nil => exact .nil
    | cons b bytes => exact .rest (List.cons_ne_nil b bytes) hmem
termination_by bytes.length
decreasing_by
  rw [hbytes, List.length_append, List.length_cons]
  omega

/-- The lines of a byte sequence are the ones it is in. -/
theorem lines_eq_iff {bytes : List UInt8} {ls : List (List UInt8)} :
    lines bytes = ls ↔ InLines bytes ls :=
  ⟨fun h => h ▸ inLines_lines bytes, InLines.lines_eq⟩

/-- The first `k` lines, each ended by a line feed. -/
def opening (k : Nat) (bytes : List UInt8) : List UInt8 :=
  ((bytes.splitOnP (· == 0x0A)).take k).flatMap (· ++ [0x0A])

/-- The lines of an opening are those of the whole, but for a carriage return at the end of the last
one. -/
theorem lines_opening_append {bytes : List UInt8} {k : Nat} (hk : k ≤ (lines bytes).length)
    (rest : List UInt8) : (lines (opening k bytes ++ rest)).map trimmed? =
      ((lines bytes).take k ++ lines rest).map trimmed? := by
  have hpieces (pieces : List (List UInt8))
      (h : ∀ piece ∈ pieces, ∀ b ∈ piece, (b == 0x0A) = false) :
      lines (pieces.flatMap (· ++ [0x0A]) ++ rest) = pieces.map dropReturn ++ lines rest := by
    induction pieces with
    | nil => rfl
    | cons piece pieces ih =>
      obtain ⟨hpiece, hpieces⟩ := List.forall_mem_cons.mp h
      rw [List.flatMap_cons, List.append_assoc, List.append_assoc, List.singleton_append,
        lines_append_cons hpiece, ih hpieces, List.map_cons, List.cons_append]
  have hdrop : trimmed? ∘ dropReturn = trimmed? := funext trimmed?_dropReturn
  rw [opening, hpieces _ fun piece hpiece b hb =>
      (mem_of_mem_splitOnP (List.mem_of_mem_take hpiece) hb).2,
    List.map_append, List.map_append, List.map_map, hdrop]
  congr 1
  obtain ⟨init, last, hsplit⟩ : ∃ init last, bytes.splitOnP (· == 0x0A) = init ++ [last] :=
    ⟨_, _, (List.dropLast_concat_getLast (List.splitOnP_ne_nil _ bytes)).symm⟩
  rw [lines, hsplit, List.dropLast_concat, List.getLast?_concat] at hk ⊢
  cases last with
  | nil =>
    -- nothing follows the last line feed, so all of these lines are ended by one
    have hinit : k ≤ init.length := by simpa using hk
    simp [List.take_append_of_le_length, hinit, List.map_take, hdrop]
  | cons b last => simp [List.map_take, hdrop]

/-- Characters in lines are encoded as lines. -/
theorem lines_encodeChars {ls : List (List Char)} (h : ∀ l ∈ ls, '\n' ∉ l) :
    lines (encodeChars (ls.flatMap (· ++ ['\n']))) =
      ls.map fun l => encodeChars (dropReturnChar l) := by
  have hencode : encodeChars (ls.flatMap (· ++ ['\n'])) =
      (ls.map encodeChars).flatMap (· ++ [0x0A]) := by
    rw [encodeChars_flatMap, List.flatMap_map]
    refine congrArg (List.flatMap · ls) (funext fun l => ?_)
    rw [encodeChars, List.flatMap_append]
    rfl
  have hpieces : ∀ piece ∈ ls.map encodeChars, ∀ b ∈ piece, (b == 0x0A) = false := by
    intro piece hpiece
    obtain ⟨l, hl, rfl⟩ := List.mem_map.mp hpiece
    exact lineFeed_notMem_encodeChars (h l hl)
  rw [lines, hencode, splitOnP_flatMap_concat (by decide) hpieces, List.dropLast_concat,
    List.getLast?_concat, List.map_map]
  simp [dropReturn_encodeChars]

end Text

end Dpll
