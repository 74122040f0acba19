import Concord.Proofs.Alignment
import Concord.Proofs.Blocks
import Concord.Proofs.Pieces

/-! The line of an offset is found among the line starts, and its column counts the characters from
there on. Both grow with the offset, so a place in a file belongs to one offset. -/
namespace Concord.Source

open Text

variable {s : Source}

theorem Aligned.lineOf_eq (h : Aligned s) (offset : Nat) :
    s.lineOf offset = (s.text.toList.take offset).count Byte.newline + 1 := by
  rw [h.lineOf_eq_lineAt, lineAt_eq]

/-- The bytes of its line before an offset. -/
def lineBefore (s : Source) (offset : Nat) : List UInt8 :=
  s.text.toList.extract (s.lineStart (s.lineOf offset)) offset

theorem Aligned.take_offset (h : Aligned s) (offset : Nat) : s.text.toList.take offset =
    s.text.toList.take (s.lineStart (s.lineOf offset)) ++ s.lineBefore offset :=
  take_append_extract _ (h.lineStart_lineOf_le offset)

theorem Aligned.newline_not_mem_lineBefore (h : Aligned s) (offset : Nat) :
    Byte.newline ∉ s.lineBefore offset := by
  have hsame := h.lineOf_lineStart offset
  have hstart := h.lineOf_eq (s.lineStart (s.lineOf offset))
  have hoffset := h.lineOf_eq offset
  rw [h.take_offset, List.count_append] at hoffset
  exact List.count_eq_zero.mp (by omega)

theorem countP_encode (t : List Char) : (encode t).countP (!isTail ·) = t.length := by
  induction t with
  | nil => rfl
  | cons c t ih =>
    obtain ⟨lead, tails, hc, hlead, htails⟩ := encodeChar_eq_cons c
    have hnone : tails.countP (!isTail ·) = 0 := List.countP_eq_zero.mpr (by simpa using htails)
    simp [encode_cons, hc, hlead, hnone, ih]

theorem place_eq (s : Source) (offset : Nat) :
    s.place offset = ⟨s.path, s.lineOf offset, (s.lineBefore offset).countP (!isTail ·) + 1⟩ := by
  simp [place, lineBefore]

/-- An offset inside a character. -/
def SplitsCharacter (s : Source) (offset : Nat) : Prop :=
  offset ≤ s.text.size ∧ ¬Between s.text.toList offset

theorem splitsCharacter_iff (h : IsUtf8 s.text.toList) (offset : Nat) :
    SplitsCharacter s offset ↔ s.text[offset]?.any isTail = true := by
  rw [SplitsCharacter, h.between_iff, Array.length_toList, Array.getElem?_toList]
  cases hb : s.text[offset]? with
  | none => simp
  | some b =>
    obtain ⟨hlt, -⟩ := Array.getElem?_eq_some_iff.mp hb
    simp [Nat.le_of_lt hlt]

theorem location_ok_iff (h : IsUtf8 s.text.toList) (offset : Nat) :
    (∃ l, s.location offset = .ok l) ↔ ¬SplitsCharacter s offset := by
  rw [splitsCharacter_iff h, location]
  split <;> simp [*]

theorem location_of_between (h : IsUtf8 s.text.toList) {offset : Nat}
    (hoffset : Between s.text.toList offset) : s.location offset = .ok (s.place offset) := by
  have hnot : ¬SplitsCharacter s offset := fun hsplit => hsplit.2 hoffset
  rw [splitsCharacter_iff h] at hnot
  rw [location, if_neg hnot]

theorem Aligned.isUtf8_lineBefore (h : Aligned s) {offset : Nat} (hoffset : Between s.text.toList offset) :
    IsUtf8 (s.lineBefore offset) := by
  have hbefore := hoffset.before
  have hle := hoffset.le
  have hstart := h.lineStart_lineOf_le offset
  rw [h.take_offset] at hbefore
  rcases h.lineStart_cases (s.lineOf offset) with hlast | hfirst | ⟨n, hn, hnewline⟩
  · rw [Array.length_toList] at hle
    have hend : s.lineStart (s.lineOf offset) = offset := by omega
    refine IsUtf8.of_append ?_ hbefore
    rw [hend]
    exact hoffset.before
  · rw [hfirst] at hbefore
    exact isUtf8_nil.of_append hbefore
  · rw [hn, List.take_add_one, hnewline] at hbefore
    exact IsUtf8.after_ascii (b := Byte.newline) (by decide) (by simpa using hbefore)

theorem Aligned.place_lt (h : Aligned s) {a b : Nat} (ha : Between s.text.toList a)
    (hb : Between s.text.toList b) (hab : a < b) :
    Prod.Lex (· < ·) (· < ·) ((s.place a).line, (s.place a).column)
      ((s.place b).line, (s.place b).column) := by
  rw [place_eq, place_eq]
  rcases Nat.eq_or_lt_of_le (h.lineOf_mono (Nat.le_of_lt hab)) with hline | hline
  · -- on one line the characters from `a` to `b` are counted for `b` only
    have htake := take_append_extract s.text.toList (Nat.le_of_lt hab)
    obtain ⟨t, ht⟩ : IsUtf8 (s.text.toList.extract a b) := ha.before.of_append (htake ▸ hb.before)
    have hsplit : s.lineBefore b = s.lineBefore a ++ encode t := by
      rw [h.take_offset, h.take_offset a, hline, ht, List.append_assoc] at htake
      exact List.append_cancel_left htake
    have hlen := congrArg List.length ht
    have hne : t ≠ [] := by
      rintro rfl
      have := hb.le
      simp at hlen this
      omega
    rw [hline, hsplit, List.countP_append, countP_encode]
    exact .right _ (Nat.succ_lt_succ (Nat.lt_add_of_pos_right (List.length_pos_iff.mpr hne)))
  · exact .left _ _ hline

/-- The line of a place is counted by the newlines before it and has none up to it, its column counts
characters, and a later place has a later location. An offset inside a character has none. -/
theorem locations_faithful {language : Language} {path content : String}
    (h : read language.lexis path content = .ok s) :
    (∀ offset, Between s.text.toList offset →
      s.lineOf offset = (s.text.toList.take offset).count Byte.newline + 1 ∧
      s.lineStart (s.lineOf offset) ≤ offset ∧ Byte.newline ∉ s.lineBefore offset ∧
      s.location offset = .ok ⟨path, s.lineOf offset, (decode (s.lineBefore offset)).length + 1⟩) ∧
    (∀ offset ≤ s.text.size, ¬Between s.text.toList offset →
      s.location offset = .error (.inside offset)) ∧
    ∀ a b, Between s.text.toList a → Between s.text.toList b → a < b →
      ∃ la lb, s.location a = .ok la ∧ s.location b = .ok lb ∧
        Prod.Lex (· < ·) (· < ·) (la.line, la.column) (lb.line, lb.column) ∧ la ≠ lb := by
  have hs := aligned_of_read h
  have htext := text_utf8_of_read h
  refine ⟨?_, ?_, ?_⟩
  · intro offset hoffset
    refine ⟨hs.lineOf_eq offset, hs.lineStart_lineOf_le offset, hs.newline_not_mem_lineBefore offset, ?_⟩
    have hpath : s.path = path := by
      obtain ⟨ts, -, -, rfl⟩ := read_eq_ok h
      rfl
    rw [location_of_between htext hoffset, place_eq, hpath, ← countP_encode,
      (hs.isUtf8_lineBefore hoffset).encode_decode]
  · intro offset hle hinside
    rw [location, if_pos ((splitsCharacter_iff htext offset).mp ⟨hle, hinside⟩)]
  · intro a b ha hb hab
    have hlt := hs.place_lt ha hb hab
    refine ⟨_, _, location_of_between htext ha, location_of_between htext hb, hlt, fun heq => ?_⟩
    simp [heq, Prod.lex_def] at hlt

/-- Places on the second line, before, inside and after a character of two bytes. -/
theorem locations_faithful_accented :
    ∃ s, read Language.go.lexis "a.go" "x\n\"é\"" = .ok s ∧ Between s.text.toList 3 ∧
      Between s.text.toList 5 ∧ s.lineOf 5 = 2 ∧ s.lineBefore 5 = [0x22, 0xC3, 0xA9] ∧
      s.location 5 = .ok ⟨"a.go", s.lineOf 5, (decode (s.lineBefore 5)).length + 1⟩ ∧
      s.location 4 = .error (.inside 4) ∧ s.location 3 ≠ s.location 5 := by
  have hview : (read Language.go.lexis "a.go" "x\n\"é\"").map
      (fun s => (s.text[3]?, s.text[4]?, s.text[5]?, s.lineOf 5, s.lineBefore 5)) =
        .ok (some 0xC3, some 0xA9, some 0x22, 2, [0x22, 0xC3, 0xA9]) := by
    decide +kernel
  cases hread : read Language.go.lexis "a.go" "x\n\"é\"" with
  | error e => simp [hread, Except.map] at hview
  | ok s =>
    obtain ⟨hopen, htail, hclose, hline, hbefore⟩ : s.text[3]? = some 0xC3 ∧ s.text[4]? = some 0xA9 ∧
        s.text[5]? = some 0x22 ∧ s.lineOf 5 = 2 ∧ s.lineBefore 5 = [0x22, 0xC3, 0xA9] := by
      simpa [hread, Except.map] using hview
    have htext := text_utf8_of_read hread
    have h3 := between_of_getElem? htext hopen (by decide)
    have h5 := between_of_getElem? htext hclose (by decide)
    obtain ⟨hle, hinside⟩ := (splitsCharacter_iff htext 4).mpr (by rw [htail]; decide)
    obtain ⟨hplace, hnone, horder⟩ := locations_faithful hread
    refine ⟨s, rfl, h3, h5, hline, hbefore, (hplace 5 h5).2.2.2, hnone 4 hle hinside, ?_⟩
    obtain ⟨la, lb, hla, hlb, -, hne⟩ := horder 3 5 h3 h5 (by decide)
    rw [hla, hlb]
    exact fun heq => hne (Except.ok.inj heq)

end Concord.Source
