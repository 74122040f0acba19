import Concord.Proofs.TypePieces

/-! After a separator the search for separators stands where it began, so what is between two of
them is split no further. -/
namespace Concord.Literal

open Text

/-- What the search knows of the text before a place: the open quote, the depth of brackets, and
whether an arrow may end here. -/
structure Standing where
  quote : Option Char
  depth : Int
  arrow : Bool

namespace Standing

def start : Standing := ⟨none, 0, false⟩

def next (st : Standing) (c : Char) : Standing where
  quote := match st.quote with
    | some q => if c == q then none else some q
    | none => if isQuote c then some c else none
  depth :=
    if st.quote.isSome then st.depth
    else if isOpening c then st.depth + 1
    else if isClosing c && !(c == '>' && st.arrow) then st.depth - 1
    else st.depth
  arrow := c == '='

def after (u : List Char) : Standing := u.foldl next start

theorem after_append (u v : List Char) : after (u ++ v) = v.foldl next (after u) := List.foldl_append

theorem next_plain {st : Standing} {c : Char} (hc : isPlain c = true) (hquote : st.quote = none)
    (hdepth : st.depth = 0) : st.next c = start := by
  simp [next, start, isPlain_iff.mp hc, hquote, hdepth]

end Standing

/-- The place after `u` is outside quotes and brackets. -/
def Outside (u : List Char) : Prop := (Standing.after u).quote = none ∧ (Standing.after u).depth = 0

/-- A text that is read after `before` and has no separator outside quotes and brackets. -/
def Uncut (sep : Char) (before u : List Char) : Prop :=
  ∀ v, v ++ [sep] <+: u → ¬Outside (before ++ v)

/-- The parts of a text between the separators outside quotes and brackets. -/
inductive Segments (sep : Char) : List Char → List (List Char) → Prop
  | last {u} (huncut : Uncut sep [] u) : Segments sep u [u]
  | cut {u t us} (huncut : Uncut sep [] u) (hout : Outside u) (hrest : Segments sep t us) :
    Segments sep (u ++ sep :: t) (u :: us)

/-- Pieces as they stand in a text that is read after `before`: around them are only blanks, and
separators outside quotes and brackets. A piece has no such separator and is `free` to start only
after one, or if it is the first. -/
inductive Laid (sep : Char) : (free : Bool) → (before text : List Char) → List (List Char) → Prop
  | done {free before} : Laid sep free before [] []
  | blank {free before c t ps} (hc : isBlank c = true) (h : Laid sep free (before ++ [c]) t ps) :
    Laid sep free before (c :: t) ps
  | cut {free before t ps} (hout : Outside before) (h : Laid sep true (before ++ [sep]) t ps) :
    Laid sep free before (sep :: t) ps
  | piece {before p t ps} (huncut : Uncut sep before p) (h : Laid sep false (before ++ p) t ps) :
    Laid sep true before (p ++ t) (p :: ps)

variable {sep : Char} {before u t : List Char} {us ps : List (List Char)}

theorem after_start_append (h : Standing.after before = .start) (u : List Char) :
    Standing.after (before ++ u) = Standing.after u := by
  rw [Standing.after_append, h]
  rfl

theorem after_sep (hsep : isPlain sep = true) (h : Outside before) :
    Standing.after (before ++ [sep]) = .start := by
  rw [Standing.after_append]
  exact Standing.next_plain hsep h.1 h.2

theorem after_blanks (h : ∀ c ∈ u, isBlank c = true) : Standing.after u = .start := by
  induction u with
  | nil => rfl
  | cons c u ih =>
    obtain ⟨hc, hu⟩ := List.forall_mem_cons.mp h
    rw [Standing.after, List.foldl_cons, Standing.next_plain (isPlain_of_isBlank hc) rfl rfl]
    exact ih hu

/-- The search cuts at a separator outside quotes and brackets and takes any other character into the
piece. -/
theorem typePieces_step (hsep : isPlain sep = true) {st : Standing} {prior c : Char}
    (hprior : (prior == '=') = st.arrow) :
    typePieces sep st.quote st.depth prior (c :: t) =
      if c = sep ∧ st.quote = none ∧ st.depth = 0 then
        [] :: typePieces sep (st.next c).quote (st.next c).depth c t
      else attach [c] (typePieces sep (st.next c).quote (st.next c).depth c t) := by
  obtain ⟨quote, depth, arrow⟩ := st
  subst hprior
  cases quote with
  | some q => simp [typePieces_some, Standing.next]
  | none =>
    rw [typePieces_none]
    simp only [Standing.next, Option.isSome_none]
    -- the separator is plain, so what opens or closes something is none
    by_cases hquote : isQuote c = true
    · grind [isPlain, isQuote, isOpening, isClosing]
    · simp only [hquote]
      by_cases hopening : isOpening c = true
      · grind [isPlain]
      · grind [isPlain, isClosing]

theorem uncut_nil : Uncut sep before [] := by
  intro v h
  simp at h

theorem Uncut.concat {c : Char} (h : Uncut sep before u) (hc : c = sep → ¬Outside (before ++ u)) :
    Uncut sep before (u ++ [c]) := by
  intro v hv
  rcases List.prefix_concat_iff.mp hv with heq | hv
  · obtain ⟨rfl, hlast⟩ := List.append_inj' heq rfl
    exact hc (List.cons.inj hlast).1.symm
  · exact h v hv

theorem segments_attach (hsep : isPlain sep = true) {prior : Char} (huncut : Uncut sep [] u)
    (hprior : (prior == '=') = (Standing.after u).arrow) : Segments sep (u ++ t)
      (attach u (typePieces sep (Standing.after u).quote (Standing.after u).depth prior t)) := by
  -- `u` is what has been read of the segment
  induction t generalizing u prior with
  | nil => simpa [typePieces, attach] using Segments.last huncut
  | cons c t ih =>
    have hnext : (Standing.after u).next c = Standing.after (u ++ [c]) := by simp [Standing.after]
    have harrow : (c == '=') = (Standing.after (u ++ [c])).arrow := congrArg Standing.arrow hnext
    rw [typePieces_step hsep hprior, hnext]
    split
    · next hcut =>
      obtain ⟨rfl, hout⟩ := hcut
      have hstart := after_sep hsep hout
      rw [hstart] at harrow ⊢
      have hrest := ih (u := []) uncut_nil harrow
      rw [attach, List.append_nil]
      exact .cut huncut hout (attach_nil_typePieces ▸ hrest)
    · next hcut =>
      rw [← attach_append, List.append_cons]
      exact ih (huncut.concat fun hc hout => hcut ⟨hc, hout⟩) harrow

theorem segments_typePieces (hsep : isPlain sep = true) (t : List Char) :
    Segments sep t (typePieces sep none 0 ' ' t) := by
  have h : Segments sep t (attach [] (typePieces sep none 0 ' ' t)) := segments_attach hsep uncut_nil rfl
  exact attach_nil_typePieces ▸ h

theorem Segments.uncut (h : Segments sep t us) : ∀ u ∈ us, Uncut sep [] u := by
  induction h with
  | last huncut => simpa using huncut
  | cut huncut _ _ ih => exact List.forall_mem_cons.mpr ⟨huncut, ih⟩

theorem typePieces_uncut (hsep : isPlain sep = true) (h : Uncut sep [] u) :
    typePieces sep none 0 ' ' u = [u] := by
  have hsegments := segments_typePieces hsep u
  generalize typePieces sep none 0 ' ' u = us at hsegments
  cases hsegments with
  | last => rfl
  | @cut u t _ _ hout _ => exact absurd hout (h u ⟨t, by simp⟩)

theorem Uncut.trim (h : Uncut sep [] u) : Uncut sep [] (trim u) := by
  obtain ⟨lead, tail, hlead, -, hu⟩ := exists_trim u
  intro v hv hout
  refine h (lead ++ v) ?_ ?_
  · rw [hu, List.append_assoc, List.prefix_append_right_inj]
    exact hv.trans (List.prefix_append _ _)
  · rwa [List.nil_append, Outside, after_start_append (after_blanks hlead)]

theorem Laid.blanks {free : Bool} (hu : ∀ c ∈ u, isBlank c = true) (h : Laid sep free (before ++ u) t ps) :
    Laid sep free before (u ++ t) ps := by
  induction u generalizing before with
  | nil => simpa using h
  | cons c u ih =>
    obtain ⟨hc, hu⟩ := List.forall_mem_cons.mp hu
    exact .blank hc (ih hu (by simpa using h))

theorem laid_segment (hbefore : Standing.after before = .start) (hu : Uncut sep [] u)
    (h : ∀ free, Laid sep free (before ++ u) t (ps.filter (!·.isEmpty))) :
    Laid sep true before (u ++ t) ((trim u :: ps).filter (!·.isEmpty)) := by
  obtain ⟨lead, tail, hlead, htail, heq⟩ := exists_trim u
  have huncut : Uncut sep (before ++ lead) (trim u) := by
    intro v hv hout
    rw [Outside, List.append_assoc, after_start_append hbefore,
      after_start_append (after_blanks hlead)] at hout
    exact hu.trim v hv hout
  have hrest (free : Bool) :
      Laid sep free (before ++ lead ++ trim u) (tail ++ t) (ps.filter (!·.isEmpty)) := by
    refine .blanks htail ?_
    rw [List.append_assoc, List.append_assoc, ← heq]
    exact h free
  have htext : lead ++ (trim u ++ (tail ++ t)) = u ++ t := by
    rw [← List.append_assoc (trim u), ← List.append_assoc, ← heq]
  rw [← htext]
  refine .blanks hlead ?_
  by_cases hnil : trim u = []
  · simpa [hnil] using hrest true
  · simpa [hnil] using Laid.piece huncut (hrest false)

theorem Segments.laid (hsep : isPlain sep = true) (h : Segments sep t us)
    (hbefore : Standing.after before = .start) :
    Laid sep true before t ((us.map Text.trim).filter (!·.isEmpty)) := by
  induction h generalizing before with
  | @last u huncut => simpa using laid_segment (t := []) hbefore huncut (fun _ => .done)
  | @cut u t us huncut hout _ ih =>
    have hout : Outside (before ++ u) := by rwa [Outside, after_start_append hbefore]
    exact laid_segment hbefore huncut fun _ => .cut hout (ih (after_sep hsep hout))

/-- The pieces of a list of types are all of its text but blanks and separators outside quotes and
brackets. They are trimmed, and a piece is split no further. -/
theorem typeList_exact (hsep : sep = ',' ∨ sep = '|') (text : List Char) :
    Laid sep true [] text (typeList sep text) ∧
      ∀ p ∈ typeList sep text, IsTrimmed p ∧ typeList sep p = [p] := by
  have hplain : isPlain sep = true := by
    rcases hsep with rfl | rfl <;> rfl
  have hsegments := segments_typePieces hplain text
  refine ⟨hsegments.laid hplain rfl, fun p hp => ?_⟩
  obtain ⟨hp, hne⟩ := List.mem_filter.mp hp
  obtain ⟨u, hu, rfl⟩ := List.mem_map.mp hp
  have htrimmed : IsTrimmed (trim u) := isTrimmed_trim (by simpa using hne)
  refine ⟨htrimmed, ?_⟩
  rw [typeList, typePieces_uncut hplain (hsegments.uncut u hu).trim, List.map_singleton,
    htrimmed.trim_self]
  simpa using hne

/-- The end of an arrow closes no bracket; the bracket that `>` closes too often ends the splitting. -/
theorem typeList_exact_arrow :
    typeList ',' "M<K, V> ,, 'a, b', () => [x, y], z> , c".toList =
      ["M<K, V>", "'a, b'", "() => [x, y]", "z> , c"].map String.toList ∧
    typeList ',' "() => [x, y]".toList = ["() => [x, y]".toList] := by
  have hlist : typeList ',' "M<K, V> ,, 'a, b', () => [x, y], z> , c".toList =
      ["M<K, V>", "'a, b'", "() => [x, y]", "z> , c"].map String.toList := by decide +kernel
  obtain ⟨-, hagain⟩ := typeList_exact (.inl rfl) "M<K, V> ,, 'a, b', () => [x, y], z> , c".toList
  exact ⟨hlist, (hagain _ (by rw [hlist]; exact List.mem_map_of_mem (by simp))).2⟩

end Concord.Literal
