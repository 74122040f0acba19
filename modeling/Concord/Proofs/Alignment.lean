import Concord.Proofs.Cuts
import Concord.Proofs.LineStarts
import Concord.Proofs.Views

/-! The views of a source show or hide the bytes of the text one by one, and what they hide they
hide in whole characters. A text that cannot be read is refused at one of its own lines. -/
namespace Concord.Text

theorem length_splitWhere (p : Char → Bool) (t : List Char) :
    (splitWhere p t).length = t.countP p + 1 := by
  induction t with
  | nil => rfl
  | cons c t ih =>
    rw [splitWhere, List.countP_cons]
    split
    · rw [List.length_cons, ih]
    · split
      · next hp _ piece pieces hpieces =>
        rw [hpieces] at ih
        simpa [hp] using ih
      · next hnil => exact absurd hnil (splitWhere_ne_nil p t)

theorem eq_concat_of_last_empty {p : Char → Bool} {t : List Char}
    (h : (splitWhere p t).getLastD [] = []) : t = [] ∨ ∃ u c, t = u ++ [c] ∧ p c = true := by
  induction t with
  | nil => exact .inl rfl
  | cons c t ih =>
    right
    obtain ⟨piece, pieces, hpieces⟩ := List.exists_cons_of_ne_nil (splitWhere_ne_nil p t)
    rw [hpieces] at ih
    rw [splitWhere, hpieces] at h
    by_cases hc : p c = true
    · rw [if_pos hc, List.getLastD_cons] at h
      rcases ih (by simpa using h) with rfl | ⟨u, d, rfl, hd⟩
      · exact ⟨[], c, rfl, hc⟩
      · exact ⟨c :: u, d, rfl, hd⟩
    · rw [if_neg hc] at h
      cases pieces with
      | nil => simp at h
      | cons q qs =>
        rcases ih (by simpa using h) with rfl | ⟨u, d, rfl, hd⟩
        · simp [splitWhere] at hpieces
        · exact ⟨c :: u, d, rfl, hd⟩

theorem count_newline_encodeChar (c : Char) :
    (String.utf8EncodeChar c).count Byte.newline = if c = '\n' then 1 else 0 := by
  rcases encodeChar_cases c with ⟨hascii, hc⟩ | hhigh
  · rw [hc, List.count_singleton]
    have hbyte : UInt8.ofNat c.toNat = Byte.newline ↔ c = '\n' := by
      rw [← UInt8.toNat_inj, toNat_ofNat_of_lt (by omega)]
      exact ⟨fun h => Char.toNat_inj.mp h, fun h => by rw [h]; rfl⟩
    simp [hbyte]
  · have hne : c ≠ '\n' := by
      rintro rfl
      exact absurd (hhigh Byte.newline (by decide)) (by decide)
    rw [if_neg hne, List.count_eq_zero]
    intro hmem
    exact absurd (hhigh _ hmem) (by decide)

theorem count_newline_encode (t : List Char) : (encode t).count Byte.newline = t.count '\n' := by
  induction t with
  | nil => rfl
  | cons c t ih =>
    rw [encode_cons, List.count_append, count_newline_encodeChar, ih, List.count_cons]
    simp [Nat.add_comm]

theorem count_newline_lt_lines {t : List Char} {offset : Nat} (h : offset < (encode t).length) :
    ((encode t).take offset).count Byte.newline < (lines t).length := by
  have hcount : (split '\n' t).length = (encode t).count Byte.newline + 1 := by
    rw [split, length_splitWhere, count_newline_encode]
    rfl
  have hle : ((encode t).take offset).count Byte.newline ≤ (encode t).count Byte.newline :=
    (List.take_sublist _ _).count_le _
  unfold lines
  dsimp only
  rw [List.length_append, List.length_map, List.length_dropLast, hcount, Nat.add_sub_cancel]
  by_cases hlast : (split '\n' t).getLastD [] = []
  · -- the text ends with a newline, which is not before the offset
    rcases eq_concat_of_last_empty hlast with rfl | ⟨u, c, rfl, hc⟩
    · simp at h
    · obtain rfl : c = '\n' := by simpa using hc
      have hnl : encode ['\n'] = [Byte.newline] := by decide
      rw [encode_append, hnl] at h ⊢
      have hoffset : offset ≤ (encode u).length := by
        simp only [List.length_append, List.length_singleton] at h
        omega
      have := (List.take_sublist offset (encode u)).count_le Byte.newline
      rw [List.take_append_of_le_length hoffset, List.count_append, List.count_singleton_self]
      omega
  · rw [if_neg (by simpa using hlast)]
    simp only [List.length_singleton]
    omega

end Concord.Text

namespace Concord.Source

open Text

variable {bs v : List UInt8} {lx : Lexis} {i offset : Nat} {content path : String}
  {ts : List Token} {stack left : List Pending} {e : Imbalance}

theorem Masks.getElem?_cases (h : Masks v bs) (i : Nat) :
    v[i]? = bs[i]? ∨ ∃ b, bs[i]? = some b ∧ v[i]? = some (Byte.hide b) := by
  induction h generalizing i with
  | nil => exact .inl rfl
  | @cons a b v bs hab _ ih =>
    cases i with
    | zero =>
      rcases hab with rfl | rfl
      · exact .inl rfl
      · exact .inr ⟨b, rfl, rfl⟩
    | succ i => simpa using ih i

theorem hide_eq_newline_iff {b : UInt8} : Byte.hide b = Byte.newline ↔ b = Byte.newline := by
  by_cases hb : b = Byte.newline
  · simp [Byte.hide, hb]
  · have hspace : Byte.space ≠ Byte.newline := by decide
    simp [Byte.hide, hb, hspace]

theorem Masks.shows_or_space (h : Masks v bs) : v[i]? = bs[i]? ∨ v[i]? = some Byte.space := by
  rcases h.getElem?_cases i with heq | ⟨b, hb, hv⟩
  · exact .inl heq
  · by_cases hnl : b = Byte.newline
    · left
      rw [hv, hb, Byte.hide, if_pos (beq_iff_eq.mpr hnl)]
    · right
      rw [hv, Byte.hide, if_neg (by simpa using hnl)]

theorem Masks.newline_iff (h : Masks v bs) :
    v[i]? = some Byte.newline ↔ bs[i]? = some Byte.newline := by
  rcases h.getElem?_cases i with heq | ⟨b, hb, hv⟩
  · rw [heq]
  · rw [hv, hb, Option.some.injEq, Option.some.injEq, hide_eq_newline_iff]

theorem isTail_hide (b : UInt8) : isTail (Byte.hide b) = false := by
  have := hide_lt b
  rw [isTail, beq_eq_false_iff_ne]
  omega

/-- A place between characters stays one where a view is valid as well. -/
theorem Masks.between (h : Masks v bs) (hv : IsUtf8 v) (hbs : IsUtf8 bs) (hi : Between bs i) :
    Between v i := by
  obtain ⟨hle, htail⟩ := hbs.between_iff.mp hi
  refine hv.between_iff.mpr ⟨h.length_eq ▸ hle, fun b hb => ?_⟩
  rcases h.getElem?_cases i with heq | ⟨a, -, ha⟩
  · exact htail b (heq ▸ hb)
  · obtain rfl := Option.some.inj (ha.symm.trans hb)
    exact isTail_hide a

theorem literalMarks_ascii (language : Language) : ∀ c ∈ literalMarks language.lexis, c.toNat < 0x80 := by
  cases language <;> decide +kernel

theorem isUtf8_hide_literal {before q body after : List UInt8} (hne : q ≠ [])
    (hascii : ∀ c ∈ q, c.toNat < 0x80) (h : IsUtf8 (before ++ (q ++ body ++ q) ++ after)) :
    IsUtf8 (before ++ (q ++ body.map Byte.hide ++ q) ++ after) := by
  have hopen : IsUtf8 (before ++ q ++ (body ++ q ++ after)) := by simpa using h
  have hclose : IsUtf8 (before ++ q ++ body ++ q ++ after) := by simpa using h
  have hbefore := isUtf8_before_mark hne hascii hopen
  have hafter := isUtf8_after_mark hne hascii hclose
  have hq := isUtf8_of_ascii hascii
  exact (hbefore.append ((hq.append (isUtf8_hide body)).append hq)).append hafter

theorem isUtf8_skeleton (hlx : AsciiMarks lx)
    (hmarks : ∀ c ∈ literalMarks lx, c.toNat < 0x80) {last : Option UInt8}
    {bytes : List UInt8} {ts : List Token} (h : tokens lx last bytes = (ts, none))
    (hvalid : IsUtf8 bytes) : IsUtf8 (ts.flatMap Token.skeleton) := by
  refine isUtf8_view hlx ?_ h hvalid
  intro last b rest t before after ht hcut hbytes
  rcases tokenAt_cases ht with hcomment | hliteral | rfl
  · have hhidden := isUtf8_hide_comment hlx hcomment hcut hbytes
    rcases commentAt_sound hcomment with ⟨_, _, -, rfl, -⟩ | ⟨_, _, _, _, -, rfl, -⟩ <;>
      exact hhidden
  · obtain ⟨q, body, -, rfl, hne, hq, -⟩ := literalAt_sound hliteral
    exact isUtf8_hide_literal hne (fun c hc => hmarks c (hq c hc)) hbytes
  · exact hbytes

theorem tokens_cover (hlx : AsciiMarks lx) (last : Option UInt8) (bytes : List UInt8) :
    ∃ rest, bytes = (tokens lx last bytes).1.flatMap Token.text ++ rest ∧
      ((tokens lx last bytes).2 ≠ none → rest ≠ []) := by
  induction hn : bytes.length using Nat.strongRecOn generalizing last bytes with
  | ind n ih =>
    subst hn
    cases bytes with
    | nil => exact ⟨[], by simp [tokens], by simp [tokens]⟩
    | cons b rest =>
      cases ht : tokenAt lx last b rest with
      | error e => exact ⟨b :: rest, by simp [tokens, ht], by simp⟩
      | ok t =>
        obtain ⟨after, last', hcut, hshort, hrun⟩ := tokens_of_tokenAt hlx ht
        obtain ⟨left, hleft, hopen⟩ := ih _ hshort last' after rfl
        refine ⟨left, ?_, ?_⟩
        · rw [hrun, List.flatMap_cons, List.append_assoc, ← hleft, ← hcut]
        · rw [hrun]
          exact hopen

theorem nestByte_offset {b : UInt8} (h : nestByte b offset stack = .error e) : e.offset = offset := by
  unfold nestByte at h
  grind

theorem mem_of_nestByte {b : UInt8} (h : nestByte b offset stack = .ok left) :
    ∀ p ∈ left, p ∈ (b, offset) :: stack := by
  unfold nestByte at h
  grind

theorem nestTokens_error_lt (h : nestTokens ts offset stack = .error e) :
    e.offset < offset + (ts.flatMap Token.text).length := by
  fun_induction nestTokens ts offset stack with
  | case1 => simp at h
  | case2 b ts offset stack e' hb =>
    obtain rfl := Except.error.inj h
    simp [nestByte_offset hb, Token.text]
  | case3 b ts offset stack stack' hb ih =>
    have := ih h
    rw [List.flatMap_cons, List.length_append, Token.text, List.length_singleton]
    omega
  | case4 t ts offset stack _ ih =>
    have := ih h
    rw [Token.size] at this
    rw [List.flatMap_cons, List.length_append]
    omega

theorem nestTokens_pending_lt (h : nestTokens ts offset stack = .ok left)
    (hstack : ∀ p ∈ stack, p.2 < offset) :
    ∀ p ∈ left, p.2 < offset + (ts.flatMap Token.text).length := by
  fun_induction nestTokens ts offset stack with
  | case1 offset stack =>
    obtain rfl := Except.ok.inj h
    simpa using hstack
  | case2 => simp at h
  | case3 b ts offset stack stack' hb ih =>
    rw [List.flatMap_cons, List.length_append, ← Nat.add_assoc]
    refine ih h fun p hp => ?_
    rcases List.mem_cons.mp (mem_of_nestByte hb p hp) with rfl | hp
    · exact Nat.lt_succ_self _
    · exact Nat.lt_succ_of_lt (hstack p hp)
  | case4 t ts offset stack _ ih =>
    rw [List.flatMap_cons, List.length_append, ← Nat.add_assoc]
    exact ih h fun p hp => Nat.lt_of_lt_of_le (hstack p hp) (Nat.le_add_right _ _)

theorem read_eq_error (hlx : AsciiMarks lx) {e : ParseError} (h : read lx path content = .error e) :
    e.path = path ∧ ∃ offset < (encode content.toList).length,
      e.line = lineAt (encode content.toList) offset := by
  obtain ⟨rest, hrest, hopen⟩ := tokens_cover hlx none (encode content.toList)
  unfold read at h
  dsimp only at h
  generalize htok : tokens lx none (encode content.toList) = r at h hrest hopen
  obtain ⟨ts, left⟩ := r
  dsimp only at h hrest hopen
  have hsize : (ts.flatMap Token.skeleton).length = (ts.flatMap Token.text).length :=
    (masks_flatMap ts fun t _ => t.skeleton_masks).length_eq.trans
      (masks_flatMap ts fun t _ => t.code_masks).length_eq
  have hlength := congrArg List.length hrest
  rw [List.length_append] at hlength
  split at h
  · next i hi =>
    -- a closing bracket that does not fit
    have := nestTokens_error_lt hi
    refine ⟨?_, i.offset, by omega, ?_⟩ <;> split at h <;> obtain rfl := Except.error.inj h <;> rfl
  · next stack hstack =>
    have hpending := nestTokens_pending_lt hstack (by simp)
    split at h
    · have := List.length_pos_of_ne_nil (hopen (by simp))
      obtain rfl := Except.error.inj h
      exact ⟨rfl, _, by omega, rfl⟩
    · have := List.length_pos_of_ne_nil (hopen (by simp))
      obtain rfl := Except.error.inj h
      exact ⟨rfl, _, by omega, rfl⟩
    · split at h
      · next o at_ outer =>
        have := hpending (o, at_) List.mem_cons_self
        obtain rfl := Except.error.inj h
        exact ⟨rfl, at_, by omega, rfl⟩
      · cases h

/-- A source holds a text and two views of it that are laid out as the text is: a view shows a byte or
a space in its place, newlines and the places between characters are the same, and both views are
UTF-8. -/
structure LaidOut (content : String) (s : Source) : Prop where
  text_eq : s.text.toList = encode content.toList
  code_size : s.code.size = s.text.size
  skeleton_size : s.skeleton.size = s.text.size
  code_shows : ∀ i : Nat, s.code[i]? = s.text[i]? ∨ s.code[i]? = some Byte.space
  skeleton_shows : ∀ i : Nat, s.skeleton[i]? = s.code[i]? ∨ s.skeleton[i]? = some Byte.space
  code_newline : ∀ i : Nat, s.code[i]? = some Byte.newline ↔ s.text[i]? = some Byte.newline
  skeleton_newline : ∀ i : Nat, s.skeleton[i]? = some Byte.newline ↔ s.text[i]? = some Byte.newline
  code_between : ∀ i, Between s.text.toList i → Between s.code.toList i
  skeleton_between : ∀ i, Between s.text.toList i → Between s.skeleton.toList i
  code_decodes : decode? s.code.toList = some s.chars
  skeleton_decodes : ∃ t, decode? s.skeleton.toList = some t

theorem text_utf8_of_read {language : Language} {s : Source}
    (h : read language.lexis path content = .ok s) : IsUtf8 s.text.toList := by
  obtain ⟨ts, -, -, rfl⟩ := read_eq_ok h
  exact isUtf8_encode _

theorem between_of_getElem? {s : Source} (h : IsUtf8 s.text.toList) {b : UInt8}
    (hb : s.text[i]? = some b) (htail : isTail b = false) : Between s.text.toList i := by
  obtain ⟨hi, -⟩ := Array.getElem?_eq_some_iff.mp hb
  exact h.between_iff.mpr ⟨by simpa using Nat.le_of_lt hi, by simpa [hb] using htail⟩

theorem skeleton_utf8_of_read {language : Language} {s : Source}
    (h : read language.lexis path content = .ok s) : IsUtf8 s.skeleton.toList := by
  obtain ⟨ts, hts, -, rfl⟩ := read_eq_ok h
  exact isUtf8_skeleton (asciiMarks_lexis language) (literalMarks_ascii language) hts (isUtf8_encode _)

theorem laidOut_of_read {language : Language} {s : Source}
    (h : read language.lexis path content = .ok s) : LaidOut content s := by
  have hs := aligned_of_read h
  have hskeleton := skeleton_utf8_of_read h
  have htext : s.text.toList = encode content.toList := by
    obtain ⟨ts, -, -, rfl⟩ := read_eq_ok h
    rfl
  have hvalid := text_utf8_of_read h
  have hcode {i : Nat} (hi : Between s.text.toList i) : Between s.code.toList i :=
    hs.code_masks.between hs.code_utf8 hvalid hi
  have hnewline (i : Nat) : s.code[i]? = some Byte.newline ↔ s.text[i]? = some Byte.newline := by
    simpa using hs.code_masks.newline_iff
  exact {
    text_eq := htext
    code_size := hs.code_size
    skeleton_size := hs.skeleton_size
    code_shows := fun i => by simpa using hs.code_masks.shows_or_space
    skeleton_shows := fun i => by simpa using hs.skeleton_masks.shows_or_space
    code_newline := hnewline
    skeleton_newline := fun i => by
      rw [← hnewline i]
      simpa using hs.skeleton_masks.newline_iff
    code_between := fun i hi => hcode hi
    skeleton_between := fun i hi => hs.skeleton_masks.between hskeleton hs.code_utf8 (hcode hi)
    code_decodes := by rw [hs.code_utf8.decode?, hs.chars_eq]
    skeleton_decodes := ⟨_, hskeleton.decode?⟩ }

/-- Reading a text gives views that are laid out as the text is, or an error that names the path and
one of the lines of the text. -/
theorem read_keeps_layout (language : Language) (path content : String) :
    match read language.lexis path content with
    | .ok s => LaidOut content s
    | .error e => e.path = path ∧ 1 ≤ e.line ∧ e.line ≤ (lines content.toList).length := by
  cases h : read language.lexis path content with
  | ok s => exact laidOut_of_read h
  | error e =>
    obtain ⟨hpath, offset, hoffset, hline⟩ := read_eq_error (asciiMarks_lexis language) h
    have := count_newline_lt_lines hoffset
    refine ⟨hpath, ?_, ?_⟩ <;> rw [hline, lineAt_eq] <;> omega

end Concord.Source
