import Mathlib.Data.List.Forall2
import Concord.Proofs.Utf8
import Concord.Extraction

/-! The tokens of a text concatenate to it, and each token is as long in every view. So the views of
a source are aligned: at each offset a view shows the byte of the text or hides it, and comments are
hidden from one character boundary to another. -/
namespace Concord.Source

open Text

variable {lx : Lexis} {last : Option UInt8} {after before bs bytes mark rest : List UInt8}
  {b : UInt8} {t : Token} {ts : List Token}

/-- `view` shows or hides each of the bytes. -/
def Masks (view bytes : List UInt8) : Prop :=
  List.Forall₂ (fun v b => v = b ∨ v = Byte.hide b) view bytes

theorem Masks.refl (bs : List UInt8) : Masks bs bs :=
  List.forall₂_same.mpr fun _ _ => .inl rfl

theorem masks_hide (bs : List UInt8) : Masks (bs.map Byte.hide) bs :=
  List.forall₂_map_left_iff.mpr (List.forall₂_same.mpr fun _ _ => .inr rfl)

theorem Masks.append {v w bs cs : List UInt8} (h : Masks v bs) (h' : Masks w cs) :
    Masks (v ++ w) (bs ++ cs) :=
  List.rel_append h h'

theorem Masks.length_eq {v bs : List UInt8} (h : Masks v bs) : v.length = bs.length :=
  List.Forall₂.length_eq h

theorem masks_flatMap {α : Type} (ts : List α) {f g : α → List UInt8}
    (h : ∀ t ∈ ts, Masks (f t) (g t)) :
    Masks (ts.flatMap f) (ts.flatMap g) := by
  induction ts with
  | nil => exact .nil
  | cons t ts ih =>
    rw [List.flatMap_cons, List.flatMap_cons]
    exact (h t List.mem_cons_self).append (ih fun u hu => h u (List.mem_cons_of_mem _ hu))

theorem Token.code_masks (t : Token) : Masks t.code t.text := by
  cases t with
  | comment o b c => exact masks_hide _
  | literal o b c => exact .refl _
  | plain b => exact .refl _

theorem Token.skeleton_masks (t : Token) : Masks t.skeleton t.code := by
  cases t with
  | comment o b c => exact .refl _
  | literal o b c => exact ((Masks.refl o).append (masks_hide b)).append (.refl c)
  | plain b => exact .refl _

/-- A scanner that keeps the bytes `ahead` and goes on covers what it is given. -/
theorem scan_ahead {r : Option (List UInt8)} {bs mark body : List UInt8} (ahead : List UInt8)
    (h : r.map (ahead ++ ·) = some body)
    (ih : ∀ more, r = some more → ∃ rest, bs = more ++ mark ++ rest) :
    ∃ rest, ahead ++ bs = body ++ mark ++ rest := by
  obtain ⟨more, hmore, rfl⟩ := Option.map_eq_some_iff.mp h
  obtain ⟨rest, rfl⟩ := ih more hmore
  exact ⟨rest, by simp⟩

theorem upTo?_sound (body : List UInt8) (h : upTo? mark bs = some body) :
    ∃ rest, bs = body ++ mark ++ rest := by
  induction bs generalizing body with
  | nil =>
    by_cases hm : mark.isEmpty = true
    · obtain rfl : body = [] := by simpa [upTo?, hm] using h.symm
      exact ⟨[], by simp [List.isEmpty_iff.mp hm]⟩
    · simp [upTo?, hm] at h
  | cons b bs ih =>
    rw [upTo?] at h
    split at h
    · next hm =>
      obtain rfl : [] = body := Option.some.inj h
      obtain ⟨rest, hrest⟩ := List.isPrefixOf_iff_prefix.mp hm
      exact ⟨rest, hrest.symm⟩
    · exact scan_ahead [b] h ih

theorem escapedBody?_sound (body : List UInt8) (h : escapedBody? mark bs = some body) :
    ∃ rest, bs = body ++ mark ++ rest := by
  fun_induction escapedBody? mark bs generalizing body with
  | case1 => simp at h
  | case2 => simp at h
  | case3 b hb c bs ih => exact scan_ahead [b, c] h ih
  | case4 b bs hb hm =>
    obtain rfl : [] = body := Option.some.inj h
    obtain ⟨rest, hrest⟩ := List.isPrefixOf_iff_prefix.mp hm
    exact ⟨rest, hrest.symm⟩
  | case5 b bs hb hm ih => exact scan_ahead [b] h ih

theorem quotedBody?_sound {quote : UInt8} {raw multiline : Bool} (body : List UInt8)
    (h : quotedBody? quote raw multiline bs = some body) : ∃ rest, bs = body ++ [quote] ++ rest := by
  fun_induction quotedBody? quote raw multiline bs generalizing body with
  | case1 => simp at h
  | case2 => simp at h
  | case3 b hb c bs ih => exact scan_ahead [b, c] h ih
  | case4 b bs hb hq =>
    obtain rfl : [] = body := Option.some.inj h
    exact ⟨bs, by simpa using hq⟩
  | case5 => simp at h
  | case6 b bs hb hq hn ih => exact scan_ahead [b] h ih

theorem slashBody?_sound {inClass : Bool} (body : List UInt8) (h : slashBody? inClass bs = some body) :
    ∃ rest, bs = body ++ [Byte.slash] ++ rest := by
  fun_induction slashBody? inClass bs generalizing body with
  | case1 => simp at h
  | case2 => simp at h
  | case3 => simp at h
  | case4 inClass b hn hb c bs ih => exact scan_ahead [b, c] h ih
  | case5 inClass b bs hn hb ho ih => exact scan_ahead [b] h ih
  | case6 inClass b bs hn hb ho hc ih => exact scan_ahead [b] h ih
  | case7 inClass b bs hn hb ho hc hs =>
    obtain rfl : [] = body := Option.some.inj h
    obtain ⟨rfl, -⟩ : b = Byte.slash ∧ inClass = false := by simpa using hs
    exact ⟨bs, rfl⟩
  | case8 inClass b bs hn hb ho hc hs ih => exact scan_ahead [b] h ih

theorem tripleQuote?_eq_some_iff {bytes q : List UInt8} :
    tripleQuote? lx bytes = some q ↔ lx.tripleQuotes = true ∧
      (q = List.replicate 3 Byte.doubleQuote ∨ q = List.replicate 3 Byte.singleQuote) ∧
      q <+: bytes := by
  constructor
  · intro h
    unfold tripleQuote? at h
    split at h
    · next a b c rest =>
      split at h
      · next hquotes =>
        obtain rfl : [a, b, c] = q := Option.some.inj h
        obtain ⟨⟨⟨htriple, rfl⟩, rfl⟩, ha⟩ : ((lx.tripleQuotes = true ∧ a = b) ∧ b = c) ∧
            (a = Byte.doubleQuote ∨ a = Byte.singleQuote) := by simpa using hquotes
        refine ⟨htriple, ?_, by simp⟩
        exact ha.imp (fun h => by rw [h]; rfl) (fun h => by rw [h]; rfl)
      · simp at h
    · simp at h
  · rintro ⟨htriple, rfl | rfl, rest, rfl⟩
    · simp [tripleQuote?, htriple, List.replicate]
    · simp [tripleQuote?, htriple, List.replicate]

/-- The bytes that literals may start and end with: a slash, the quotes of text blocks and the quotes
of strings. -/
def literalMarks (lx : Lexis) : List UInt8 :=
  Byte.slash :: Byte.doubleQuote :: Byte.singleQuote :: lx.quotes

theorem tripleQuote?_sound {rest q : List UInt8} (h : tripleQuote? lx (b :: rest) = some q) :
    b :: rest = q ++ rest.drop 2 ∧ q ≠ [] ∧ ∀ c ∈ q, c ∈ literalMarks lx := by
  obtain ⟨-, hq, after, hafter⟩ := tripleQuote?_eq_some_iff.mp h
  obtain ⟨a, rfl, ha⟩ : ∃ a, q = [a, a, a] ∧ a ∈ literalMarks lx := by
    rcases hq with rfl | rfl <;> exact ⟨_, rfl, by simp [literalMarks]⟩
  obtain ⟨rfl, rfl⟩ := List.cons.inj hafter
  exact ⟨rfl, List.cons_ne_nil _ _, by simpa using ha⟩

/-- A literal stands between two equal marks. -/
theorem literalAt_sound (h : literalAt lx last b rest = some (.ok t)) :
    ∃ q body after, t = .literal q body q ∧ q ≠ [] ∧ (∀ c ∈ q, c ∈ literalMarks lx) ∧
      b :: rest = q ++ body ++ q ++ after := by
  unfold literalAt at h
  split at h
  · next q hq =>
    obtain ⟨hrest, hne, hmarks⟩ := tripleQuote?_sound hq
    split at h
    · next body hbody =>
      obtain rfl : Token.literal q body q = t := by simpa using h
      obtain ⟨after, hafter⟩ := escapedBody?_sound body hbody
      exact ⟨q, body, after, rfl, hne, hmarks, by simp [hrest, hafter]⟩
    · simp at h
  · dsimp only at h
    split at h
    · next body hslashed =>
      obtain rfl : Token.literal [b] body [b] = t := by simpa using h
      split at hslashed
      · next hb =>
        obtain ⟨hbody, -⟩ := Option.filter_eq_some_iff.mp hslashed
        obtain ⟨after, rfl⟩ := slashBody?_sound body hbody
        obtain rfl : b = Byte.slash := by simp at hb; exact hb.1.2
        exact ⟨_, body, after, rfl, by simp, by simp [literalMarks], by simp⟩
      · simp at hslashed
    · split at h
      · next hquote =>
        split at h
        · next body hbody =>
          obtain rfl : Token.literal [b] body [b] = t := by simpa using h
          obtain ⟨after, rfl⟩ := quotedBody?_sound body hbody
          have hmark := List.contains_iff_mem.mp hquote
          exact ⟨_, body, after, rfl, by simp, by simp [literalMarks, hmark], by simp⟩
        · simp at h
      · simp at h

/-- A comment at the start of a text. It ends with its closing mark, or before the end of its line.
-/
theorem commentAt_sound (h : commentAt lx bytes = some (.ok t)) :
    (∃ body after, lx.lineComment ≠ [] ∧ t = .comment lx.lineComment body [] ∧
        bytes = t.text ++ after ∧ ∀ b ∈ after.head?, b = Byte.newline) ∨
      ∃ o body c after, lx.blockComment = some (o, c) ∧ t = .comment o body c ∧
        bytes = t.text ++ after := by
  unfold commentAt at h
  dsimp only at h
  split at h
  · next hline =>
    obtain ⟨hne, hmark⟩ : lx.lineComment ≠ [] ∧ lx.lineComment <+: bytes := by
      simpa [List.isPrefixOf_iff_prefix] using hline
    obtain ⟨rest, rfl⟩ := hmark
    rw [List.drop_left] at h
    obtain rfl : Token.comment lx.lineComment (rest.takeWhile (· != Byte.newline)) [] = t := by
      simpa using h
    refine .inl ⟨_, rest.dropWhile (· != Byte.newline), hne, rfl, ?_, ?_⟩
    · simp [Token.text, List.takeWhile_append_dropWhile]
    · intro b hb
      have := List.head?_dropWhile_not (· != Byte.newline) rest
      rw [Option.mem_def.mp hb] at this
      simpa using this
  · split at h
    · next o c hblock =>
      split at h
      · next hmark =>
        obtain ⟨rest, rfl⟩ := List.isPrefixOf_iff_prefix.mp hmark
        rw [List.drop_left] at h
        split at h
        · next body hbody =>
          obtain rfl : Token.comment o body c = t := by simpa using h
          obtain ⟨after, rfl⟩ := upTo?_sound body hbody
          exact .inr ⟨o, body, c, after, hblock, rfl, by simp [Token.text]⟩
        · simp at h
      · simp at h
    · simp at h

/-- The marks of comments are ASCII, and those of comments over several lines are not empty. -/
structure AsciiMarks (lx : Lexis) : Prop where
  line : ∀ b ∈ lx.lineComment, b.toNat < 0x80
  block : ∀ m ∈ lx.blockComment, m.1 ≠ [] ∧ m.2 ≠ [] ∧ ∀ b ∈ m.1 ++ m.2, b.toNat < 0x80

theorem asciiMarks_lexis (language : Language) : AsciiMarks language.lexis := by
  cases language <;> constructor <;> decide +kernel

theorem tokenAt_cases (h : tokenAt lx last b rest = .ok t) :
    commentAt lx (b :: rest) = some (.ok t) ∨ literalAt lx last b rest = some (.ok t) ∨
      t = .plain b := by
  unfold tokenAt at h
  split at h
  · next r hr => exact .inl (h ▸ hr)
  · split at h
    · next r hr => exact .inr (.inl (h ▸ hr))
    · exact .inr (.inr (Except.ok.inj h).symm)

theorem tokenAt_sound (hlx : AsciiMarks lx) (h : tokenAt lx last b rest = .ok t) :
    t.text ≠ [] ∧ ∃ after, b :: rest = t.text ++ after := by
  rcases tokenAt_cases h with hcomment | hliteral | rfl
  · rcases commentAt_sound hcomment with
      ⟨body, after, hne, rfl, hcut, -⟩ | ⟨o, body, c, after, ho, rfl, hcut⟩
    · exact ⟨by simp [Token.text, hne], after, hcut⟩
    · exact ⟨by simp [Token.text, (hlx.block _ ho).1], after, hcut⟩
  · obtain ⟨q, body, after, rfl, hne, -, hcut⟩ := literalAt_sound hliteral
    exact ⟨by simp [Token.text, hne], after, hcut⟩
  · exact ⟨by simp [Token.text], rest, rfl⟩

theorem tokens_of_tokenAt (hlx : AsciiMarks lx) (h : tokenAt lx last b rest = .ok t) :
    ∃ after last', b :: rest = t.text ++ after ∧ after.length < (b :: rest).length ∧
      tokens lx last (b :: rest) =
        (t :: (tokens lx last' after).1, (tokens lx last' after).2) := by
  obtain ⟨hne, after, hcut⟩ := tokenAt_sound hlx h
  have hdrop : rest.drop (t.size - 1) = after := by
    obtain ⟨a, w, hw⟩ := List.exists_cons_of_ne_nil hne
    obtain ⟨rfl, rfl⟩ : b = a ∧ rest = w ++ after := by simpa [hw] using hcut
    simp [Token.size, hw]
  refine ⟨after, lastSignificant last t.skeleton, hcut, ?_, by rw [tokens, h, ← hdrop]⟩
  have := List.length_pos_of_ne_nil hne
  rw [hcut, List.length_append]
  omega

theorem tokens_cons (hlx : AsciiMarks lx) (h : tokens lx last (b :: rest) = (ts, none)) :
    ∃ t us after last', tokenAt lx last b rest = .ok t ∧ ts = t :: us ∧
      b :: rest = t.text ++ after ∧ tokens lx last' after = (us, none) := by
  cases ht : tokenAt lx last b rest with
  | error e => simp [tokens, ht] at h
  | ok t =>
    obtain ⟨after, last', hcut, -, hrun⟩ := tokens_of_tokenAt hlx ht
    obtain ⟨rfl, hend⟩ := Prod.mk.inj (hrun.symm.trans h)
    exact ⟨t, _, after, last', rfl, rfl, hcut, Prod.ext rfl hend⟩

/-- An induction over the tokens of a text that is cut to its end. -/
theorem tokens_induction (hlx : AsciiMarks lx) {P : List UInt8 → List Token → Prop} (nil : P [] [])
    (cons : ∀ last b rest t us after, tokenAt lx last b rest = .ok t → b :: rest = t.text ++ after →
      P after us → P (t.text ++ after) (t :: us))
    (h : tokens lx last bytes = (ts, none)) : P bytes ts := by
  induction hn : bytes.length using Nat.strongRecOn generalizing last bytes ts with
  | ind n ih =>
    subst hn
    cases bytes with
    | nil =>
      obtain rfl : [] = ts := by simpa [tokens] using h
      exact nil
    | cons b rest =>
      obtain ⟨t, us, after, last', ht, rfl, hcut, hrun⟩ := tokens_cons hlx h
      have hshort : after.length < (b :: rest).length := by
        have := List.length_pos_of_ne_nil (tokenAt_sound hlx ht).1
        rw [hcut, List.length_append]
        omega
      rw [hcut]
      exact cons _ b rest t us after ht hcut (ih _ hshort hrun rfl)

/-- The tokens of a text concatenate to it. -/
theorem flatMap_text_tokens (hlx : AsciiMarks lx) (h : tokens lx last bytes = (ts, none)) :
    ts.flatMap Token.text = bytes := by
  refine tokens_induction (P := fun bytes ts => ts.flatMap Token.text = bytes) hlx ?_ ?_ h
  · rfl
  · rintro - - - t us after - - ih
    rw [List.flatMap_cons, ih]

theorem hide_lt (b : UInt8) : (Byte.hide b).toNat < 0x80 := by
  unfold Byte.hide
  split
  · next h => rw [beq_iff_eq.mp h]; decide
  · decide

theorem isUtf8_hide (bs : List UInt8) : IsUtf8 (bs.map Byte.hide) := by
  refine isUtf8_of_ascii fun b hb => ?_
  obtain ⟨a, -, rfl⟩ := List.mem_map.mp hb
  exact hide_lt a

theorem isUtf8_before_mark (hne : mark ≠ []) (hmark : ∀ b ∈ mark, b.toNat < 0x80)
    (h : IsUtf8 (before ++ mark ++ after)) : IsUtf8 before := by
  obtain ⟨m, mark, rfl⟩ := List.exists_cons_of_ne_nil hne
  rw [List.append_assoc, List.cons_append] at h
  exact h.before_ascii (hmark m List.mem_cons_self)

theorem isUtf8_after_mark (hne : mark ≠ []) (hmark : ∀ b ∈ mark, b.toNat < 0x80)
    (h : IsUtf8 (before ++ mark ++ after)) : IsUtf8 after := by
  have hlast := hmark _ (List.getLast_mem hne)
  have hsplit : before ++ mark ++ after =
      before ++ mark.dropLast ++ mark.getLast hne :: after := by
    nth_rewrite 1 [← List.dropLast_concat_getLast hne]
    simp
  exact (hsplit ▸ h).after_ascii hlast

theorem commentAt_boundary (hlx : AsciiMarks lx) (h : commentAt lx bytes = some (.ok t))
    (hcut : bytes = t.text ++ after) (hvalid : IsUtf8 (before ++ bytes)) :
    IsUtf8 before ∧ IsUtf8 after := by
  rcases commentAt_sound h with
    ⟨body, rest, hne, rfl, hrest, hend⟩ | ⟨o, body, c, rest, hoc, rfl, hrest⟩
  · obtain rfl : after = rest := List.append_cancel_left (hcut.symm.trans hrest)
    have hmark : IsUtf8 (before ++ lx.lineComment ++ (body ++ after)) := by
      simpa [hcut, Token.text] using hvalid
    refine ⟨isUtf8_before_mark hne hlx.line hmark, ?_⟩
    cases after with
    | nil => exact isUtf8_nil
    | cons b after =>
      -- the line ends here, so what stands before the newline is valid, and then what follows it
      obtain rfl : b = Byte.newline := hend b (by simp)
      rw [hcut, ← List.append_assoc] at hvalid
      exact (hvalid.before_ascii (by decide)).of_append hvalid
  · obtain rfl : after = rest := List.append_cancel_left (hcut.symm.trans hrest)
    obtain ⟨ho, hc, hmarks⟩ := hlx.block _ hoc
    have hopen : IsUtf8 (before ++ o ++ (body ++ c ++ after)) := by
      simpa [hcut, Token.text] using hvalid
    have hclose : IsUtf8 (before ++ o ++ body ++ c ++ after) := by
      simpa [hcut, Token.text] using hvalid
    exact ⟨isUtf8_before_mark ho (fun b hb => hmarks b (List.mem_append_left _ hb)) hopen,
      isUtf8_after_mark hc (fun b hb => hmarks b (List.mem_append_right _ hb)) hclose⟩

/-- A view of valid bytes is valid if it is so next to any token. -/
theorem isUtf8_view (hlx : AsciiMarks lx) {view : Token → List UInt8}
    (hview : ∀ last b rest t before after, tokenAt lx last b rest = .ok t →
      b :: rest = t.text ++ after → IsUtf8 (before ++ t.text ++ after) →
        IsUtf8 (before ++ view t ++ after))
    (h : tokens lx last bytes = (ts, none)) (hvalid : IsUtf8 bytes) : IsUtf8 (ts.flatMap view) := by
  suffices hrun : ∀ before, IsUtf8 (before ++ bytes) → IsUtf8 (before ++ ts.flatMap view) from
    hrun [] hvalid
  refine tokens_induction
    (P := fun bytes ts => ∀ before, IsUtf8 (before ++ bytes) → IsUtf8 (before ++ ts.flatMap view))
    hlx (fun _ h => h) ?_ h
  intro last b rest t us after ht hcut ih before hbefore
  rw [← List.append_assoc] at hbefore
  rw [List.flatMap_cons, ← List.append_assoc]
  exact ih _ (hview last b rest t before after ht hcut hbefore)

/-- Hiding a comment leaves valid bytes around it. -/
theorem isUtf8_hide_comment (hlx : AsciiMarks lx) (h : commentAt lx bytes = some (.ok t))
    (hcut : bytes = t.text ++ after) (hvalid : IsUtf8 (before ++ t.text ++ after)) :
    IsUtf8 (before ++ t.text.map Byte.hide ++ after) := by
  rw [List.append_assoc, ← hcut] at hvalid
  obtain ⟨hbefore, hafter⟩ := commentAt_boundary hlx h hcut hvalid
  exact (hbefore.append (isUtf8_hide _)).append hafter

theorem isUtf8_code (hlx : AsciiMarks lx) (h : tokens lx last bytes = (ts, none))
    (hvalid : IsUtf8 bytes) : IsUtf8 (ts.flatMap Token.code) := by
  refine isUtf8_view hlx ?_ h hvalid
  intro last b rest t before after ht hcut hbytes
  rcases tokenAt_cases ht with hcomment | hliteral | rfl
  · have hhidden := isUtf8_hide_comment hlx hcomment hcut hbytes
    rcases commentAt_sound hcomment with ⟨_, _, -, rfl, -⟩ | ⟨_, _, _, _, -, rfl, -⟩ <;>
      exact hhidden
  · obtain ⟨q, body, -, rfl, -⟩ := literalAt_sound hliteral
    exact hbytes
  · exact hbytes

theorem read_eq_ok {path content : String} {s : Source} (h : read lx path content = .ok s) :
    ∃ ts, tokens lx none (encode content.toList) = (ts, none) ∧
      nestTokens ts 0 [] = .ok [] ∧
      s = {
        path
        text := (encode content.toList).toArray
        code := (ts.flatMap Token.code).toArray
        skeleton := (ts.flatMap Token.skeleton).toArray
        chars := decode (ts.flatMap Token.code)
        comments := commentsOf ts 1
        lineStarts := (lineStartsOf (encode content.toList)).toArray } := by
  unfold read at h
  dsimp only at h
  generalize htok : tokens lx none (encode content.toList) = r at h
  obtain ⟨ts, left⟩ := r
  dsimp only at h
  split at h
  · split at h <;> simp at h
  · next stack hstack =>
    split at h
    · simp at h
    · simp at h
    · split at h
      · simp at h
      · exact ⟨ts, rfl, hstack, (Except.ok.inj h).symm⟩

/-- A source whose views fit each other: each offset means one place in all of them. -/
structure Aligned (s : Source) : Prop where
  code_masks : Masks s.code.toList s.text.toList
  skeleton_masks : Masks s.skeleton.toList s.code.toList
  code_utf8 : IsUtf8 s.code.toList
  chars_eq : s.chars = decode s.code.toList
  lineStarts_eq : s.lineStarts.toList = lineStartsOf s.text.toList

theorem aligned_of_read {language : Language} {path content : String} {s : Source}
    (h : read language.lexis path content = .ok s) : Aligned s := by
  obtain ⟨ts, hts, -, rfl⟩ := read_eq_ok h
  have hlx := asciiMarks_lexis language
  have htext := flatMap_text_tokens hlx hts
  exact {
    code_masks := by
      rw [← htext]
      exact masks_flatMap ts fun t _ => t.code_masks
    skeleton_masks := masks_flatMap ts fun t _ => t.skeleton_masks
    code_utf8 := isUtf8_code hlx hts (isUtf8_encode _)
    chars_eq := rfl
    lineStarts_eq := rfl }

namespace Aligned

variable {s : Source}

theorem code_size (h : Aligned s) : s.code.size = s.text.size := by
  simpa using h.code_masks.length_eq

theorem skeleton_size (h : Aligned s) : s.skeleton.size = s.text.size := by
  rw [← h.code_size]
  simpa using h.skeleton_masks.length_eq

theorem code_of_skeleton (h : Aligned s) {i : Nat} (hb : s.skeleton[i]? = some b)
    (hspace : b ≠ Byte.space) : s.code[i]? = some b := by
  rw [← Array.getElem?_toList] at hb
  obtain ⟨hi, rfl⟩ := List.getElem?_eq_some_iff.mp hb
  have hi' : i < s.code.toList.length := by
    rw [← h.skeleton_masks.length_eq]
    exact hi
  rw [← Array.getElem?_toList, List.getElem?_eq_getElem hi', Option.some.injEq]
  have hmask := List.Forall₂.get h.skeleton_masks hi hi'
  rcases hmask with heq | heq
  · exact heq.symm
  · simp only [List.get_eq_getElem] at heq
    rw [heq] at hspace ⊢
    unfold Byte.hide at hspace ⊢
    grind

end Aligned

end Concord.Source
