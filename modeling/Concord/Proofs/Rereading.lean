import Concord.Proofs.Lexemes

/-! The code of a source is its text with the comments hidden. Where no slash encloses a literal,
reading the code finds the same literals and the same plain bytes at the same places, and no
comment: a mark or a quote is never made up by hiding a byte, and a literal is read up to its own
end whatever follows. -/
namespace Concord.Source

open Text

variable {language : Language} {after body bs bytes mark view : List UInt8} {ts : List Token}

/-- A byte that does not come about by hiding one. -/
def Visible (b : UInt8) : Prop := b ≠ Byte.space ∧ b ≠ Byte.newline

instance (b : UInt8) : Decidable (Visible b) := inferInstanceAs (Decidable (_ ∧ _))

theorem hide_eq (b : UInt8) : Byte.hide b = Byte.space ∨ Byte.hide b = Byte.newline := by
  unfold Byte.hide
  by_cases hb : b == Byte.newline
  · rw [if_pos hb]
    exact .inr (beq_iff_eq.mp hb)
  · rw [if_neg hb]
    exact .inl rfl

theorem Masks.starts (h : Masks view bytes) (hmark : ∀ b ∈ mark, Visible b) (hview : mark <+: view) :
    mark <+: bytes := by
  induction h generalizing mark with
  | nil => exact hview
  | @cons v b view bytes hvb _ ih =>
    cases mark with
    | nil => exact List.nil_prefix
    | cons m mark =>
      obtain ⟨hm, hmark⟩ := List.forall_mem_cons.mp hmark
      obtain ⟨rfl, hrest⟩ := List.cons_prefix_cons.mp hview
      rcases hvb with rfl | rfl
      · exact List.cons_prefix_cons.mpr ⟨rfl, ih hmark hrest⟩
      · exact absurd (hide_eq b) (not_or.mpr hm)

/-- Conventions without slash literals, whose marks are visible. -/
structure Rereadable (lx : Lexis) : Prop where
  slash : lx.slashLiterals = false
  line : ∀ b ∈ lx.lineComment, Visible b
  block : ∀ m ∈ lx.blockComment, ∀ b ∈ m.1, Visible b

theorem rereadable_lexis (h : language ≠ .typeScript) : Rereadable language.lexis := by
  cases language with
  | typeScript => exact absurd rfl h
  | go => constructor <;> decide +kernel
  | python => constructor <;> decide +kernel
  | java => constructor <;> decide +kernel

theorem commentAt_eq_none_iff {lx : Lexis} :
    commentAt lx bytes = none ↔ ¬(lx.lineComment ≠ [] ∧ lx.lineComment <+: bytes) ∧
      ∀ m ∈ lx.blockComment, ¬m.1 <+: bytes := by
  have hline : (!lx.lineComment.isEmpty && lx.lineComment.isPrefixOf bytes) = true ↔
      lx.lineComment ≠ [] ∧ lx.lineComment <+: bytes := by
    simp [List.isPrefixOf_iff_prefix]
  unfold commentAt
  dsimp only
  by_cases hlc : lx.lineComment ≠ [] ∧ lx.lineComment <+: bytes
  · rw [if_pos (hline.mpr hlc)]
    simp [hlc]
  · rw [if_neg (mt hline.mp hlc)]
    cases hblock : lx.blockComment with
    | none => simp [hlc]
    | some m =>
      by_cases hm : m.1 <+: bytes
      · simp only [List.isPrefixOf_iff_prefix.mpr hm, if_true]
        split <;> simp [hm]
      · have hnot : m.1.isPrefixOf bytes = false := by
          simpa [← List.isPrefixOf_iff_prefix] using hm
        simp [hnot, hlc, hm]

theorem Rereadable.commentAt_view {lx : Lexis} (hlx : Rereadable lx) (h : Masks view bytes)
    (hnone : commentAt lx bytes = none) : commentAt lx view = none := by
  obtain ⟨hline, hblock⟩ := commentAt_eq_none_iff.mp hnone
  apply commentAt_eq_none_iff.mpr
  constructor
  · rintro ⟨hne, hview⟩
    exact hline ⟨hne, h.starts hlx.line hview⟩
  · intro m hm hview
    exact hblock m hm (h.starts (hlx.block m hm) hview)

theorem tripleQuote?_view {lx : Lexis} (h : Masks view bytes) (hnone : tripleQuote? lx bytes = none) :
    tripleQuote? lx view = none := by
  cases hview : tripleQuote? lx view with
  | none => rfl
  | some q =>
    obtain ⟨htriple, hq, hstart⟩ := tripleQuote?_eq_some_iff.mp hview
    have hvisible : ∀ b ∈ q, Visible b := by
      intro b hb
      rcases hq with rfl | rfl
      · obtain rfl := List.eq_of_mem_replicate hb
        decide
      · obtain rfl := List.eq_of_mem_replicate hb
        decide
    have hsome := tripleQuote?_eq_some_iff.mpr ⟨htriple, hq, h.starts hvisible hstart⟩
    rw [hnone] at hsome
    cases hsome

theorem starts_of_length_le {mark u v w : List UInt8} (hle : mark.length ≤ u.length)
    (h : mark <+: u ++ v) : mark <+: u ++ w :=
  (List.prefix_of_prefix_length_le h (List.prefix_append u v) hle).trans (List.prefix_append u w)

theorem escapedBody?_append (hmark : mark ≠ []) (h : escapedBody? mark bs = some body)
    (rest : List UInt8) : escapedBody? mark (body ++ mark ++ rest) = some body := by
  fun_induction escapedBody? mark bs generalizing body with
  | case1 => simp at h
  | case2 => simp at h
  | case3 b hb c bs ih =>
    obtain ⟨more, hmore, rfl⟩ := Option.map_eq_some_iff.mp h
    simp [escapedBody?, hb, ← ih hmore]
  | case4 b bs hb hm =>
    obtain rfl : [] = body := Option.some.inj h
    obtain ⟨m, mark, rfl⟩ := List.exists_cons_of_ne_nil hmark
    obtain ⟨rfl, -⟩ := List.cons_prefix_cons.mp (List.isPrefixOf_iff_prefix.mp hm)
    have hstart : (m :: mark).isPrefixOf (m :: (mark ++ rest)) = true :=
      List.isPrefixOf_iff_prefix.mpr (List.prefix_append (m :: mark) rest)
    rw [List.nil_append, List.cons_append, escapedBody?.eq_def]
    simp only [if_neg hb, if_pos hstart]
  | case5 b bs hb hm ih =>
    obtain ⟨more, hmore, rfl⟩ := Option.map_eq_some_iff.mp h
    obtain ⟨after, rfl⟩ := escapedBody?_sound more hmore
    have hlater : ¬mark.isPrefixOf (b :: (more ++ mark ++ rest)) = true := by
      rw [List.isPrefixOf_iff_prefix] at hm ⊢
      intro hstart
      have hle : mark.length ≤ (b :: (more ++ mark)).length := by simp; omega
      exact hm (starts_of_length_le hle hstart)
    rw [List.cons_append, List.cons_append, escapedBody?.eq_def]
    simp only [if_neg hb, if_neg hlater, ih hmore, Option.map_some]

theorem quotedBody?_of_some {quote : UInt8} {raw multiline : Bool}
    (h : quotedBody? quote raw multiline bs = some body) (rest : List UInt8) :
    quotedBody? quote raw multiline (body ++ quote :: rest) = some body := by
  fun_induction quotedBody? quote raw multiline bs generalizing body with
  | case1 => simp at h
  | case2 => simp at h
  | case3 b hb c bs ih =>
    obtain ⟨more, hmore, rfl⟩ := Option.map_eq_some_iff.mp h
    simp [quotedBody?, hb, ih hmore]
  | case4 b bs hb hq =>
    obtain rfl : [] = body := Option.some.inj h
    obtain rfl := beq_iff_eq.mp hq
    rw [List.nil_append, quotedBody?.eq_def]
    simp only [if_neg hb, if_pos hq]
  | case5 => simp at h
  | case6 b bs hb hq hn ih =>
    obtain ⟨more, hmore, rfl⟩ := Option.map_eq_some_iff.mp h
    rw [List.cons_append, quotedBody?.eq_def]
    simp only [if_neg hb, if_neg hq, if_neg hn, ih hmore, Option.map_some]

namespace Rereadable

variable {lx : Lexis} {last : Option UInt8} {b : UInt8} {rest : List UInt8} {t : Token}

/-- Where slashes enclose no literals, a literal stands between three quotes or between two. -/
theorem literalAt_cases (hlx : Rereadable lx) (h : literalAt lx last b rest = some (.ok t)) :
    (∃ q body, tripleQuote? lx (b :: rest) = some q ∧ escapedBody? q (rest.drop 2) = some body ∧
        t = .literal q body q) ∨
      ∃ body, tripleQuote? lx (b :: rest) = none ∧ lx.quotes.contains b = true ∧
        quotedBody? b (lx.rawQuotes.contains b)
          (lx.rawQuotes.contains b || lx.multilineQuotes.contains b) rest = some body ∧
        t = .literal [b] body [b] := by
  unfold literalAt at h
  simp only [hlx.slash, Bool.false_and, Bool.false_eq_true, if_false] at h
  split at h
  · next q hq =>
    left
    split at h
    · next body hbody => exact ⟨q, body, hq, hbody, by simpa using h.symm⟩
    · simp at h
  · next hq =>
    right
    split at h
    · next hb =>
      split at h
      · next body hbody => exact ⟨body, hq, hb, hbody, by simpa using h.symm⟩
      · simp at h
    · simp at h

theorem literalAt_eq_none_iff (hlx : Rereadable lx) :
    literalAt lx last b rest = none ↔ tripleQuote? lx (b :: rest) = none ∧ lx.quotes.contains b = false := by
  unfold literalAt
  simp only [hlx.slash, Bool.false_and, Bool.false_eq_true, if_false]
  cases tripleQuote? lx (b :: rest) with
  | some q =>
    dsimp only
    split <;> simp
  | none =>
    dsimp only
    by_cases hb : lx.quotes.contains b = true
    · rw [if_pos hb, hb]
      split <;> simp
    · rw [if_neg hb]
      simpa using hb

/-- A literal is read where it stands whatever follows it, if that does not add to its quotes. -/
theorem literalAt_view (hlx : Rereadable lx) (h : literalAt lx last b rest = some (.ok t))
    (hcut : b :: rest = t.text ++ after) (hview : Masks view after) (last' : Option UInt8) :
    ∃ rest', t.text ++ view = b :: rest' ∧ literalAt lx last' b rest' = some (.ok t) := by
  rcases hlx.literalAt_cases h with ⟨q, body, hq, hbody, rfl⟩ | ⟨body, hq, hb, hbody, rfl⟩
  · obtain ⟨htriple, hquotes, -⟩ := tripleQuote?_eq_some_iff.mp hq
    obtain ⟨a, rfl⟩ : ∃ a, q = [a, a, a] := by rcases hquotes with rfl | rfl <;> exact ⟨_, rfl⟩
    obtain ⟨rfl, -⟩ := List.cons.inj hcut
    refine ⟨b :: b :: (body ++ [b, b, b] ++ view), by simp [Token.text], ?_⟩
    have hthree : tripleQuote? lx (b :: b :: b :: (body ++ [b, b, b] ++ view)) = some [b, b, b] :=
      tripleQuote?_eq_some_iff.mpr ⟨htriple, hquotes, by simp⟩
    have hagain := escapedBody?_append (by simp) hbody view
    simp only [literalAt, hthree, List.drop_succ_cons, List.drop_zero, hagain]
  · refine ⟨body ++ b :: view, by simp [Token.text], ?_⟩
    have hmasks : Masks (b :: (body ++ b :: view)) (b :: rest) := by
      rw [hcut]
      simpa [Token.text] using (Masks.refl (b :: (body ++ [b]))).append hview
    have hagain := quotedBody?_of_some hbody view
    simp only [literalAt, tripleQuote?_view hmasks hq, hlx.slash, Bool.false_and, Bool.false_eq_true,
      if_false, hb, if_true, hagain]

/-- A token that is no comment is read where it stands, also if bytes after it are hidden. -/
theorem tokenAt_view (hlx : Rereadable lx) (h : tokenAt lx last b rest = .ok t)
    (hcode : commentAt lx (b :: rest) = none) (hcut : b :: rest = t.text ++ after)
    (hview : Masks view after) (last' : Option UInt8) :
    ∃ rest', t.text ++ view = b :: rest' ∧ tokenAt lx last' b rest' = .ok t := by
  have hmasks : Masks (t.text ++ view) (b :: rest) := hcut ▸ (Masks.refl _).append hview
  have hcomment := hlx.commentAt_view hmasks hcode
  unfold tokenAt at h
  rw [hcode] at h
  dsimp only at h
  cases hliteral : literalAt lx last b rest with
  | some r =>
    rw [hliteral] at h
    obtain rfl : r = .ok t := h
    obtain ⟨rest', hrest, hagain⟩ := hlx.literalAt_view hliteral hcut hview last'
    refine ⟨rest', hrest, ?_⟩
    rw [tokenAt, ← hrest, hcomment]
    simp only [hagain]
  | none =>
    rw [hliteral] at h
    obtain rfl : Token.plain b = t := Except.ok.inj h
    obtain ⟨htriple, hquotes⟩ := hlx.literalAt_eq_none_iff.mp hliteral
    have hagain : literalAt lx last' b view = none :=
      hlx.literalAt_eq_none_iff.mpr ⟨tripleQuote?_view hmasks htriple, hquotes⟩
    refine ⟨view, rfl, ?_⟩
    have hcomment' : commentAt lx (b :: view) = none := hcomment
    simp only [tokenAt, hcomment', hagain]

end Rereadable

/-- A token as it is read from the code: a comment is the blanks that are left of it. -/
def Token.uncommented : Token → List Token
  | .comment o b c => (o ++ b ++ c).map fun byte => .plain (Byte.hide byte)
  | t => [t]

section Uncommented

theorem flatMap_hidden {view : Token → List UInt8} (hplain : ∀ b, view (.plain b) = [b])
    (bytes : List UInt8) :
    (bytes.map fun b => Token.plain (Byte.hide b)).flatMap view = bytes.map Byte.hide := by
  rw [List.flatMap_map, List.map_eq_flatMap]
  congr 1
  funext b
  exact hplain _

variable (t : Token)

theorem Token.flatMap_code_uncommented : t.uncommented.flatMap Token.code = t.code := by
  cases t with
  | comment o b c => exact flatMap_hidden (fun _ => rfl) _
  | literal o b c => exact List.append_nil _
  | plain b => rfl

theorem Token.flatMap_skeleton_uncommented : t.uncommented.flatMap Token.skeleton = t.skeleton := by
  cases t with
  | comment o b c => exact flatMap_hidden (fun _ => rfl) _
  | literal o b c => exact List.append_nil _
  | plain b => rfl

end Uncommented

/-- Hidden bytes are read as blanks, and what follows them is read on its own. -/
theorem tokens_hidden (language : Language) (bytes rest : List UInt8) (last : Option UInt8) :
    ∃ last', tokens language.lexis last (bytes.map Byte.hide ++ rest) =
      (bytes.map (fun b => .plain (Byte.hide b)) ++ (tokens language.lexis last' rest).1,
        (tokens language.lexis last' rest).2) := by
  induction bytes generalizing last with
  | nil => exact ⟨last, rfl⟩
  | cons b bytes ih =>
    have hblank : tokenAt language.lexis last (Byte.hide b) (bytes.map Byte.hide ++ rest) =
        .ok (.plain (Byte.hide b)) := by
      have hlx := quotesDouble_lexis language
      rcases hide_eq b with hb | hb
      · rw [hb]
        exact hlx.tokenAt_sign (c := ' ') ⟨by decide, by decide⟩ last _
      · rw [hb]
        exact hlx.tokenAt_sign (c := '\n') ⟨by decide, by decide⟩ last _
    obtain ⟨after, last₁, hcut, -, hrun⟩ := tokens_of_tokenAt (asciiMarks_lexis language) hblank
    obtain rfl : bytes.map Byte.hide ++ rest = after := (List.cons.inj hcut).2
    obtain ⟨last', hrest⟩ := ih last₁
    refine ⟨last', ?_⟩
    rw [List.map_cons, List.cons_append, hrun, hrest]
    rfl

/-- One step of reading the code: the token that stands first, or the blanks that are left of it. -/
theorem tokens_code_step (hlanguage : language ≠ .typeScript) {last : Option UInt8} {b : UInt8}
    {rest after view : List UInt8} {t : Token} (ht : tokenAt language.lexis last b rest = .ok t)
    (hcut : b :: rest = t.text ++ after) (hview : Masks view after) (last' : Option UInt8) :
    ∃ next, tokens language.lexis last' (t.code ++ view) =
      (t.uncommented ++ (tokens language.lexis next view).1, (tokens language.lexis next view).2) := by
  cases hcomment : commentAt language.lexis (b :: rest) with
  | some r =>
    obtain rfl : r = .ok t := by simpa [tokenAt, hcomment] using ht
    obtain ⟨o, body, c, rfl⟩ : ∃ o body c, t = .comment o body c := by
      rcases commentAt_sound hcomment with ⟨body, -, -, rfl, -⟩ | ⟨o, body, c, -, -, rfl, -⟩
      · exact ⟨_, body, _, rfl⟩
      · exact ⟨o, body, c, rfl⟩
    exact tokens_hidden language (o ++ body ++ c) view last'
  | none =>
    obtain ⟨rest', hrest, hagain⟩ :=
      (rereadable_lexis hlanguage).tokenAt_view ht hcomment hcut hview last'
    obtain ⟨after', next, hcut', -, hrun⟩ := tokens_of_tokenAt (asciiMarks_lexis language) hagain
    obtain rfl : view = after' := List.append_cancel_left (hrest.trans hcut')
    have hshown : t.code = t.text ∧ t.uncommented = [t] := by
      rcases tokenAt_cases ht with h | h | rfl
      · simp [hcomment] at h
      · obtain ⟨q, body, -, rfl, -⟩ := literalAt_sound h
        exact ⟨rfl, rfl⟩
      · exact ⟨rfl, rfl⟩
    rw [hshown.1, hshown.2, hrest]
    exact ⟨next, hrun⟩

/-- The code is cut into the tokens of the text, with blanks in the place of comments. -/
theorem tokens_code (hlanguage : language ≠ .typeScript) {last : Option UInt8}
    (h : tokens language.lexis last bytes = (ts, none)) (last' : Option UInt8) :
    tokens language.lexis last' (ts.flatMap Token.code) = (ts.flatMap Token.uncommented, none) := by
  suffices hrun : ts.flatMap Token.text = bytes ∧ ∀ last', tokens language.lexis last'
      (ts.flatMap Token.code) = (ts.flatMap Token.uncommented, none) from hrun.2 last'
  refine tokens_induction (P := fun bytes ts => ts.flatMap Token.text = bytes ∧ ∀ last',
    tokens language.lexis last' (ts.flatMap Token.code) = (ts.flatMap Token.uncommented, none))
    (asciiMarks_lexis language) ⟨rfl, fun last' => by simp [tokens]⟩ ?_ h
  rintro last b rest t us after ht hcut ⟨htext, ih⟩
  refine ⟨by rw [List.flatMap_cons, htext], fun last' => ?_⟩
  have hview : Masks (us.flatMap Token.code) after := htext ▸ masks_flatMap us fun u _ => u.code_masks
  obtain ⟨next, hrun⟩ := tokens_code_step hlanguage ht hcut hview last'
  rw [List.flatMap_cons, hrun, ih next, List.flatMap_cons]

theorem commentsOf_eq_nil (h : ∀ t ∈ ts, ∀ o b c, t ≠ .comment o b c) (line : Nat) :
    commentsOf ts line = [] := by
  induction ts generalizing line with
  | nil => rfl
  | cons t ts ih =>
    obtain ⟨ht, hts⟩ := List.forall_mem_cons.mp h
    cases t with
    | comment o b c => exact absurd rfl (ht o b c)
    | literal o b c => exact ih hts _
    | plain b => exact ih hts _

theorem ne_comment_of_mem_uncommented {t u : Token} (hu : u ∈ t.uncommented) (o b c : List UInt8) :
    u ≠ .comment o b c := by
  cases t with
  | comment o b c =>
    obtain ⟨a, -, rfl⟩ := List.mem_map.mp hu
    simp
  | literal o b c =>
    obtain rfl := List.mem_singleton.mp hu
    simp
  | plain a =>
    obtain rfl := List.mem_singleton.mp hu
    simp

/-- The code of a source, where slashes enclose no literals, is read again with the same code, the same
skeleton and no comments. Its tokens are those of the text with blanks in the place of comments. -/
theorem code_read_again {language : Language} (hlanguage : language ≠ .typeScript)
    {path content : String} {s : Source} (h : read language.lexis path content = .ok s) :
    (∃ s', read language.lexis path (String.ofList s.chars) = .ok s' ∧ s'.code = s.code ∧
      s'.skeleton = s.skeleton ∧ s'.comments = []) ∧
    tokens language.lexis none s.code.toList =
      ((tokens language.lexis none (encode content.toList)).1.flatMap Token.uncommented, none) := by
  obtain ⟨ts, hts, hnest, rfl⟩ := read_eq_ok h
  have hbytes : encode (decode (ts.flatMap Token.code)) = ts.flatMap Token.code :=
    (isUtf8_code (asciiMarks_lexis language) hts (isUtf8_encode _)).encode_decode
  have htokens := tokens_code hlanguage hts none
  have hcode : (ts.flatMap Token.uncommented).flatMap Token.code = ts.flatMap Token.code := by
    rw [List.flatMap_assoc]
    simp only [Token.flatMap_code_uncommented]
  have hskeleton : (ts.flatMap Token.uncommented).flatMap Token.skeleton = ts.flatMap Token.skeleton := by
    rw [List.flatMap_assoc]
    simp only [Token.flatMap_skeleton_uncommented]
  have hcomments : commentsOf (ts.flatMap Token.uncommented) 1 = [] := by
    apply commentsOf_eq_nil
    intro u hu
    obtain ⟨t, -, hu⟩ := List.mem_flatMap.mp hu
    exact ne_comment_of_mem_uncommented hu
  have hagain := nestTokens_of_tokens htokens 0 []
  rw [hskeleton, ← nestTokens_of_tokens hts, hnest] at hagain
  refine ⟨?_, by rw [hts]; exact htokens⟩
  simp [read, hbytes, htokens, hskeleton, hagain, hcode, hcomments]

/-- Quotes and a bracket inside comments, and comment marks inside a text block and a string. -/
def quotesAndMarks : String :=
  "a('\\''); /* \" \x7b */ b = \"\"\"\n// \"\"\";\nc(\"/*\"); // don't\n"

/-- Both comments are gone from the code, and the literals are read as before. -/
theorem quotesAndMarks_read_again :
    ∃ s s', read Language.java.lexis "A.java" quotesAndMarks = .ok s ∧
      s.comments.map (·.text) = ["\" \x7b", "don't"] ∧
      read Language.java.lexis "A.java" (String.ofList s.chars) = .ok s' ∧ s'.code = s.code ∧
      s'.skeleton = s.skeleton ∧ s'.comments = [] := by
  have hview : (read Language.java.lexis "A.java" quotesAndMarks).map
      (fun s => s.comments.map (·.text)) = .ok ["\" \x7b", "don't"] := by decide +kernel
  cases hread : read Language.java.lexis "A.java" quotesAndMarks with
  | error e => simp [hread, Except.map] at hview
  | ok s =>
    have hcomments : s.comments.map (·.text) = ["\" \x7b", "don't"] := by
      simpa [hread, Except.map] using hview
    obtain ⟨⟨s', hagain⟩, -⟩ := code_read_again (by decide) hread
    exact ⟨s, s', rfl, hcomments, hagain⟩

end Concord.Source
