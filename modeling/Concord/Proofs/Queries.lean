import Concord.Proofs.Concatenations
import Concord.Proofs.JoinedRoutes

/-! A path ends where a query or a fragment begins, but the scheme and the host are looked for
first, and in the whole text. So a query is left out as long as it holds no address of its own. -/
namespace Concord

open Text

namespace Route

theorem cut?_trimEnd (t : List Char) :
    cut? schemeMark (trimEnd t) = (cut? schemeMark t).map fun r => (r.1, trimEnd r.2) := by
  cases hcut : cut? schemeMark t with
  | none =>
    have hshort : trimEnd t <+: t := List.rdropWhile_prefix isBlank t
    rw [cut?_eq_none_iff] at hcut
    exact cut?_eq_none_iff.mpr fun h => hcut (h.trans hshort.isInfix)
  | some r =>
    obtain ⟨before, rest⟩ := r
    have hlast : ∀ c ∈ (before ++ schemeMark).getLast?, isBlank c = false := by
      intro c hc
      obtain rfl : '/' = c := by simpa [schemeMark] using hc
      decide
    have hend : trimEnd t = before ++ (schemeMark ++ trimEnd rest) := by
      rw [eq_of_cut? hcut, ← List.append_assoc, ← List.append_assoc]
      exact dropEndWhile_append_of_last hlast rest
    rw [hend, cut?_of_cut? hcut]
    rfl

theorem cut?_trimStart (t : List Char) :
    (cut? schemeMark (trimStart t)).map (·.2) = (cut? schemeMark t).map (·.2) := by
  induction t with
  | nil => rfl
  | cons c t ih =>
    by_cases hc : isBlank c = true
    · have hnone : afterLead? schemeMark (c :: t) = none := by
        rw [afterLead?_eq_none_iff, schemeMark, List.cons_prefix_cons]
        rintro ⟨rfl, -⟩
        cases hc
      rw [trimStart, List.dropWhile_cons_of_pos hc, cut?, hnone, Option.map_map]
      exact ih
    · rw [trimStart, List.dropWhile_cons_of_neg hc]

theorem cut?_trim (t : List Char) :
    (cut? schemeMark (trim t)).map (·.2) = ((cut? schemeMark t).map (·.2)).map trimEnd := by
  rw [trim, cut?_trimEnd, Option.map_map, ← cut?_trimStart, Option.map_map]
  rfl

theorem withoutHost_eq (t : List Char) :
    withoutHost t = (((cut? schemeMark t).map (·.2)).map (·.dropWhile (· != '/'))).getD t := by
  rw [withoutHost, ← schemeMark]
  cases cut? schemeMark t <;> rfl

section Segments

variable {p q : List Char} {mark : Char}

theorem segments_eq (t : List Char) : segments (String.ofList t) =
    (parts ((withoutHost (trim t)).takeWhile fun c => c != '?' && c != '#')).map ofPart := by
  rw [segments, String.toList_ofList]
  rfl

theorem not_mem_schemeMark (hmark : mark = '?' ∨ mark = '#') : mark ∉ schemeMark := by
  rcases hmark with rfl | rfl <;> decide

theorem takeWhile_append_mark (hp : ∀ c ∈ p, c ≠ '?' ∧ c ≠ '#') (hmark : mark = '?' ∨ mark = '#') :
    (p ++ mark :: q).takeWhile (fun c => c != '?' && c != '#') = p := by
  rw [List.takeWhile_append_of_pos fun c hc => by simp [hp c hc]]
  rcases hmark with rfl | rfl <;> simp

theorem trim_append_mark (hp : IsPlain p) (hmark : mark = '?' ∨ mark = '#') :
    trim (p ++ mark :: q) = p ++ mark :: trimEnd q := by
  have hblank : isBlank mark = false := by rcases hmark with rfl | rfl <;> decide
  have hstart : trimStart (p ++ mark :: q) = p ++ mark :: q := by
    cases p with
    | nil => simp [trimStart, hblank]
    | cons c p => simp [trimStart, (hp.chars c List.mem_cons_self).1]
  have hlast : ∀ c ∈ (p ++ [mark]).getLast?, isBlank c = false := by simpa using hblank
  have hend := dropEndWhile_append_of_last hlast q
  rw [List.append_assoc, List.append_assoc] at hend
  rw [trim, hstart]
  exact hend

theorem segments_of_query (hp : IsPlain p) (hmark : mark = '?' ∨ mark = '#')
    (hq : ¬schemeMark <:+: q) :
    segments (String.ofList (p ++ mark :: q)) = segments (String.ofList p) := by
  have hcut : cut? schemeMark (p ++ mark :: q) = none := by
    rw [cut?_append hp.scheme (not_mem_schemeMark hmark), cut?_eq_none_iff.mpr hq]
    rfl
  have hhost : withoutHost (trim (p ++ mark :: q)) = p ++ mark :: trimEnd q := by
    rw [withoutHost_eq, cut?_trim, hcut, trim_append_mark hp hmark]
    rfl
  rw [segments_eq, hhost, takeWhile_append_mark (fun c hc => (hp.chars c hc).2) hmark, hp.segments_eq]

theorem segments_of_address (hp : IsPlain p) (hmark : mark = '?' ∨ mark = '#') (hq : schemeMark <:+: q) :
    segments (String.ofList (p ++ mark :: q)) = segments (String.ofList q) := by
  obtain ⟨r, hcut⟩ : ∃ r, cut? schemeMark q = some r :=
    Option.ne_none_iff_exists'.mp fun hnone => cut?_eq_none_iff.mp hnone hq
  have hhost : withoutHost (trim (p ++ mark :: q)) = withoutHost (trim q) := by
    rw [withoutHost_eq, withoutHost_eq, cut?_trim, cut?_trim,
      cut?_append hp.scheme (not_mem_schemeMark hmark), hcut]
    rfl
  rw [segments_eq, segments_eq, hhost]

end Segments

end Route

namespace Literal

open Route

section Templates

variable {p q : List Char} {mark quote : Char}

theorem urlPath?_eq (t : List Char) : urlPath? t =
    let path := ((cut? schemeMark t).map (·.2)).elim t fun rest =>
      if rest.contains '/' then rest.dropWhile (· != '/') else ['/']
    if path.contains '/' then
      some (dropTrailingSlashes ((path.dropWhile (· != '/')).takeWhile fun c => c != '?' && c != '#'))
    else none := by
  rw [urlPath?, ← schemeMark]
  cases cut? schemeMark t <;> rfl

theorem cut?_path (hp : ∀ c ∈ p, isPathChar c = true) (hmark : mark = '?' ∨ mark = '#') :
    cut? schemeMark (p ++ mark :: q) =
      (cut? schemeMark q).map fun r => (p ++ mark :: r.1, r.2) := by
  apply cut?_append _ (not_mem_schemeMark hmark)
  intro hscheme
  have hcolon : isPathChar ':' = true := hp ':' (hscheme.mem (by simp [schemeMark]))
  cases hcolon

theorem urlPath?_of_query (hp : ∀ c ∈ p, isPathChar c = true) (hmark : mark = '?' ∨ mark = '#')
    (hslash : '/' ∈ p) (hq : ¬schemeMark <:+: q) : urlPath? (p ++ mark :: q) = urlPath? p := by
  have hmarks : ∀ c ∈ p, c ∉ [':', '?', '#'] := by
    intro c hc
    have := isPathChar_not_mem (hp c hc)
    simp_all
  have hcut : cut? schemeMark (p ++ mark :: q) = none := by
    rw [cut?_path hp hmark, cut?_eq_none_iff.mpr hq]
    rfl
  have hdrop : (p ++ mark :: q).dropWhile (· != '/') = p.dropWhile (· != '/') ++ mark :: q := by
    rw [List.dropWhile_append, if_neg]
    simpa using hslash
  have htake : ((p.dropWhile (· != '/')) ++ mark :: q).takeWhile (fun c => c != '?' && c != '#') =
      p.dropWhile (· != '/') := by
    apply takeWhile_append_mark _ hmark
    intro c hc
    have := hmarks c ((List.dropWhile_suffix _).mem hc)
    simp_all
  rw [urlPath?_eq_fromSlash hmarks, urlPath?_eq]
  simp [hcut, hdrop, htake, hslash, fromSlash]

theorem urlPath?_of_address (hp : ∀ c ∈ p, isPathChar c = true) (hmark : mark = '?' ∨ mark = '#')
    (hq : '/' ∈ p → schemeMark <:+: q) : urlPath? (p ++ mark :: q) = urlPath? q := by
  rw [urlPath?_eq, urlPath?_eq, cut?_path hp hmark]
  cases hcut : cut? schemeMark q with
  | some r => rfl
  | none =>
    have hslash : '/' ∉ p := fun h => cut?_eq_none_iff.mp hcut (hq h)
    have hne : '/' ≠ mark := by rcases hmark with rfl | rfl <;> decide
    have hdrop : (p ++ mark :: q).dropWhile (· != '/') = q.dropWhile (· != '/') := by
      rw [List.append_cons]
      apply List.dropWhile_append_of_pos
      intro c hc
      simpa using ne_of_mem_of_not_mem hc (by simpa using ⟨hslash, hne⟩)
    have hcontains : (p ++ mark :: q).contains '/' = q.contains '/' := by
      simp [hslash, hne]
    simp only [Option.map_none, Option.elim_none, hdrop, hcontains]
    rfl

theorem inside_literal (hquote : isQuote quote = true) {t : List Char}
    (ht : ∀ c ∈ t, c ∉ ['\\', '{', '%', quote]) (rest : List Char) :
    inside quote 0 (t ++ quote :: rest) = (outside false true rest).map (t ++ ·) := by
  have hbrace : quote ≠ '{' := by
    rintro rfl
    cases hquote
  induction t with
  | nil => simp [inside_quote hquote]
  | cons c t ih =>
    obtain ⟨hc, ht⟩ := List.forall_mem_cons.mp ht
    simp only [List.mem_cons, List.not_mem_nil, or_false, not_or] at hc
    have hhead : (t ++ quote :: rest).head? ≠ some '{' := by
      cases t with
      | nil => simpa using hbrace
      | cons d t =>
        have hd := ht d List.mem_cons_self
        simp only [List.mem_cons, not_or] at hd
        simpa using hd.2.1
    rw [List.cons_append, inside_cons hquote, if_neg hc.1, if_neg hc.2.1, if_neg fun h => hhead h.2.2,
      if_neg (Nat.lt_irrefl 0), if_neg hc.2.2.2, if_neg fun h => hc.2.2.1 h.1, ih ht, Option.map_map]
    rfl

theorem pathTemplate?_literal (hquote : isQuote quote = true) {t : List Char}
    (ht : ∀ c ∈ t, c ∉ ['\\', '{', '%', quote]) :
    pathTemplate? (quote :: (t ++ [quote])) = urlPath? t := by
  have hread : unwrapped (trim (quote :: (t ++ [quote]))) = quote :: (t ++ [quote]) :=
    unwrapped_trim hquote (last_quote (quote :: t) hquote (by simp))
  rw [pathTemplate?, hread, outside_quote hquote, inside_literal hquote ht]
  simp [outside]

theorem not_mem_of_quote (hquote : isQuote quote = true) {c : Char}
    (hc : c ∉ ['"', '\'', '`', '\\', '{', '}', '%']) : c ∉ ['\\', '{', '%', quote] := by
  simp only [isQuote, Bool.or_eq_true, beq_iff_eq] at hquote
  rcases hquote with (rfl | rfl) | rfl <;> simp_all

theorem isPathChar_not_mem_of_quote (hquote : isQuote quote = true) {c : Char}
    (hc : isPathChar c = true) : c ∉ ['\\', '{', '%', quote] := by
  apply not_mem_of_quote hquote
  intro hmem
  simp only [List.mem_cons, List.not_mem_nil, or_false] at hmem
  rcases hmem with rfl | rfl | rfl | rfl | rfl | rfl | rfl <;> revert hc <;> decide

end Templates

def betweenQuotes (quote : Char) (t : List Char) : List Char := quote :: (t ++ [quote])

end Literal

open Route Literal

/-- A path with a query or a fragment has the segments of the path just if what follows the mark holds no
scheme or has the same segments; with a scheme, what follows is read instead. In a literal, it has the
template of the path just if the path has a slash and no scheme follows, or what follows has the same
template; otherwise the template of what follows is taken. -/
theorem query_left_out_iff (p q : List Char) {mark quote : Char} (hmark : mark = '?' ∨ mark = '#')
    (hquote : isQuote quote = true) :
    (IsPlain p →
      (segments (String.ofList (p ++ mark :: q)) = segments (String.ofList p) ↔
        (schemeMark <:+: q → segments (String.ofList q) = segments (String.ofList p))) ∧
      (schemeMark <:+: q →
        segments (String.ofList (p ++ mark :: q)) = segments (String.ofList q))) ∧
    ((∀ c ∈ p, isPathChar c = true) → (∀ c ∈ q, c ∉ ['"', '\'', '`', '\\', '{', '}', '%']) →
      (pathTemplate? (betweenQuotes quote (p ++ mark :: q)) = pathTemplate? (betweenQuotes quote p) ↔
        '/' ∈ p ∧ ¬schemeMark <:+: q ∨
          pathTemplate? (betweenQuotes quote q) = pathTemplate? (betweenQuotes quote p)) ∧
      (('/' ∈ p → schemeMark <:+: q) →
        pathTemplate? (betweenQuotes quote (p ++ mark :: q)) = pathTemplate? (betweenQuotes quote q))) := by
  constructor
  · intro hp
    refine ⟨?_, segments_of_address hp hmark⟩
    by_cases hq : schemeMark <:+: q
    · rw [segments_of_address hp hmark hq]
      exact ⟨fun h _ => h, fun h => h hq⟩
    · exact iff_of_true (segments_of_query hp hmark hq) fun h => absurd h hq
  · intro hp hq
    have hp' := pathTemplate?_literal hquote fun c hc => isPathChar_not_mem_of_quote hquote (hp c hc)
    have hq' := pathTemplate?_literal hquote fun c hc => not_mem_of_quote hquote (hq c hc)
    have hboth : pathTemplate? (betweenQuotes quote (p ++ mark :: q)) = urlPath? (p ++ mark :: q) := by
      apply pathTemplate?_literal hquote
      intro c hc
      rcases List.mem_append.mp hc with hc | hc
      · exact isPathChar_not_mem_of_quote hquote (hp c hc)
      · rcases List.mem_cons.mp hc with rfl | hc
        · exact not_mem_of_quote hquote (by rcases hmark with rfl | rfl <;> decide)
        · exact not_mem_of_quote hquote (hq c hc)
    rw [hboth, betweenQuotes, betweenQuotes, hp', hq']
    refine ⟨?_, urlPath?_of_address hp hmark⟩
    by_cases hkept : '/' ∈ p ∧ ¬schemeMark <:+: q
    · exact iff_of_true (urlPath?_of_query hp hmark hkept.1 hkept.2) (.inl hkept)
    · rw [urlPath?_of_address hp hmark fun hslash => by simpa [hslash] using hkept]
      exact ⟨.inr, fun h => h.resolve_left hkept⟩

def login : List Char := "/login".toList

def backTo : List Char := "back=https://shop/home".toList

/-- Behind a path, the path of the address is read instead, also from a literal of both. A path without a
scheme is not. -/
theorem login_read_as_home :
    segments (String.ofList (login ++ '?' :: backTo)) = [.literal "home"] ∧
      segments (String.ofList (login ++ '?' :: backTo)) ≠ segments (String.ofList login) ∧
      segments (String.ofList (login ++ '?' :: "back=/home".toList)) = [.literal "login"] ∧
      pathTemplate? (betweenQuotes '"' (login ++ '?' :: backTo)) = some "/home".toList ∧
      pathTemplate? (betweenQuotes '"' (login ++ '?' :: "back=/home".toList)) = some login := by
  have hplain : IsPlain login :=
    ⟨List.all_iff_forall_prop.mp (by decide), cut?_eq_none_iff.mp (by decide +kernel)⟩
  have hpath : ∀ c ∈ login, isPathChar c = true := List.all_eq_true.mp (by decide)
  have haddress : schemeMark <:+: backTo := ⟨"back=https".toList, "shop/home".toList, by decide⟩
  have hpage : ¬schemeMark <:+: "back=/home".toList := cut?_eq_none_iff.mp (by decide +kernel)
  have hquote : isQuote '"' = true := rfl
  obtain ⟨hsegments, htemplate⟩ := query_left_out_iff login backTo (.inl rfl) hquote
  obtain ⟨hsegments', htemplate'⟩ := query_left_out_iff login "back=/home".toList (.inl rfl) hquote
  refine ⟨((hsegments hplain).2 haddress).trans (by decide +kernel), fun h => ?_,
    ((hsegments' hplain).1.mpr fun h => absurd h hpage).trans (by decide +kernel), ?_, ?_⟩
  · exact absurd ((hsegments hplain).1.mp h haddress) (by decide +kernel)
  · exact ((htemplate hpath (List.all_iff_forall_prop.mp (by decide))).2 fun _ => haddress).trans
      (by decide +kernel)
  · exact ((htemplate' hpath (List.all_iff_forall_prop.mp (by decide))).1.mpr
      (.inl ⟨by decide, hpage⟩)).trans (by decide +kernel)

end Concord
