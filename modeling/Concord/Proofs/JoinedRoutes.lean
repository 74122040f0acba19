import Mathlib.Data.Bool.AllAny
import Mathlib.Data.List.DropRight
import Concord.Binding.Match
import Concord.Proofs.Cuts

/-! A route is put below the path of its controller in one of two ways: the slashes at the seam and
at the ends are settled, or the parts of both are joined anew. Either way the segments are those of
the base and then those of the route, since no slash is lost between parts and no scheme appears at
the seam. -/
namespace Concord.Route

open Text

variable {ps : List (List Char)}

def parts (t : List Char) : List (List Char) := (split '/' t).filter (!·.isEmpty)

@[simp] theorem parts_nil : parts [] = [] := rfl

theorem parts_append_cons (a b : List Char) : parts (a ++ '/' :: b) = parts a ++ parts b := by
  rw [parts, split, splitWhere_append_cons (by decide), List.filter_append]
  rfl

@[simp] theorem parts_cons (t : List Char) : parts ('/' :: t) = parts t := parts_append_cons [] t

@[simp] theorem parts_dropWhile (t : List Char) : parts (t.dropWhile (· == '/')) = parts t := by
  induction t with
  | nil => rfl
  | cons c t ih =>
    by_cases hc : c = '/'
    · simp [hc, ih]
    · simp [hc]

@[simp] theorem parts_dropEndWhile (t : List Char) : parts (dropEndWhile (· == '/') t) = parts t := by
  change parts (t.rdropWhile (· == '/')) = parts t
  induction t using List.reverseRecOn with
  | nil => rfl
  | append_singleton t c ih =>
    by_cases hc : c = '/'
    · subst hc
      rw [List.rdropWhile_concat_pos _ _ _ (by decide), ih, parts_append_cons, parts_nil, List.append_nil]
    · rw [List.rdropWhile_concat_neg _ _ _ (by simpa using hc)]

def ArePieces (ps : List (List Char)) : Prop := ∀ p ∈ ps, p ≠ [] ∧ '/' ∉ p

theorem arePieces_parts (t : List Char) : ArePieces (parts t) := by
  intro p hp
  obtain ⟨hmem, hne⟩ := List.mem_filter.mp hp
  refine ⟨by simpa using hne, fun hslash => ?_⟩
  simpa using (mem_of_mem_splitWhere hmem hslash).2

theorem parts_of_piece {p : List Char} (hne : p ≠ []) (hp : '/' ∉ p) : parts p = [p] := by
  have hsplit : split '/' p = [p] := by
    apply splitWhere_self
    intro c hc
    simpa using ne_of_mem_of_not_mem hc hp
  simp [parts, hsplit, hne]

theorem parts_intercalate (h : ArePieces ps) : parts (List.intercalate ['/'] ps) = ps := by
  induction ps with
  | nil => rfl
  | cons p ps ih =>
    obtain ⟨⟨hne, hp⟩, hps⟩ := List.forall_mem_cons.mp h
    cases ps with
    | nil => rw [List.intercalate_singleton, parts_of_piece hne hp]
    | cons q qs =>
      rw [List.intercalate_cons_cons, List.append_assoc, List.singleton_append, parts_append_cons,
        ih hps, parts_of_piece hne hp, List.singleton_append]

def schemeMark : List Char := [':', '/', '/']

/-- A text without blanks, query, fragment and scheme. -/
structure IsPlain (t : List Char) : Prop where
  chars : ∀ c ∈ t, isBlank c = false ∧ c ≠ '?' ∧ c ≠ '#'
  scheme : ¬schemeMark <:+: t

/-- A scheme needs two slashes in a row, so one slash between two texts makes none unless a text has
another slash beside it. -/
theorem not_schemeMark_append {a b : List Char} (ha : ¬schemeMark <:+: a) (hb : ¬schemeMark <:+: b)
    (hlast : a.getLast? ≠ some '/') (hhead : b.head? ≠ some '/') :
    ¬schemeMark <:+: a ++ '/' :: b := by
  intro h
  rcases List.infix_append_iff.mp h with h | h | ⟨u, v, huv, hu, hv⟩
  · exact ha h
  · rcases List.infix_cons_iff.mp h with h | h
    · simp [schemeMark] at h
    · exact hb h
  · -- the mark lies across the end of the first text
    match u, huv with
    | [], huv =>
      obtain rfl : schemeMark = v := huv
      simp [schemeMark] at hv
    | [_], huv =>
      obtain ⟨-, rfl⟩ : _ ∧ ['/', '/'] = v := by simpa [schemeMark] using huv
      obtain ⟨w, rfl⟩ : ['/'] <+: b := by simpa using hv
      simp at hhead
    | _ :: d :: u, huv =>
      obtain ⟨-, rfl, hu'⟩ : _ ∧ '/' = d ∧ ['/'] = u ++ v := by simpa [schemeMark] using huv
      have hslash : ∀ c ∈ u.getLast?, c = '/' := by
        intro c hc
        have hmem : c ∈ u ++ v := List.mem_append_left _ (List.mem_of_getLast? hc)
        simpa [← hu'] using hmem
      obtain ⟨w, rfl⟩ := hu
      apply hlast
      cases hend : u.getLast? with
      | none => simp [List.getLast?_append, List.getLast?_cons, hend]
      | some c => simp [List.getLast?_append, List.getLast?_cons, hend, hslash c hend]

theorem not_schemeMark_of_piece {p : List Char} (hp : '/' ∉ p) : ¬schemeMark <:+: p :=
  fun h => hp (List.IsInfix.mem (by simp [schemeMark]) h)

theorem not_schemeMark_cons {t : List Char} (h : ¬schemeMark <:+: t) : ¬schemeMark <:+: '/' :: t := by
  simpa [List.infix_cons_iff, schemeMark] using h

theorem head?_intercalate_ne (h : ArePieces ps) : (List.intercalate ['/'] ps).head? ≠ some '/' := by
  cases ps with
  | nil => simp
  | cons p ps =>
    obtain ⟨⟨hne, hp⟩, -⟩ := List.forall_mem_cons.mp h
    obtain ⟨c, p, rfl⟩ := List.exists_cons_of_ne_nil hne
    have hc : c ≠ '/' := fun h => hp (h ▸ List.mem_cons_self)
    cases ps <;> simp [hc]

theorem not_schemeMark_intercalate (h : ArePieces ps) : ¬schemeMark <:+: List.intercalate ['/'] ps := by
  induction ps with
  | nil => simp [schemeMark]
  | cons p ps ih =>
    obtain ⟨⟨-, hp⟩, hps⟩ := List.forall_mem_cons.mp h
    cases ps with
    | nil =>
      rw [List.intercalate_singleton]
      exact not_schemeMark_of_piece hp
    | cons q qs =>
      rw [List.intercalate_cons_cons, List.append_assoc, List.singleton_append]
      apply not_schemeMark_append (not_schemeMark_of_piece hp) (ih hps) _ (head?_intercalate_ne hps)
      intro hlast
      exact hp (List.mem_of_getLast? hlast)

def ofPart (p : List Char) : Segment := if isParam p then .param else .literal (String.ofList p)

theorem IsPlain.segments_eq {t : List Char} (h : IsPlain t) :
    segments (String.ofList t) = (parts t).map ofPart := by
  have hstart : t.dropWhile isBlank = t := by
    apply List.dropWhile_eq_self_iff.mpr
    intro hlen
    simp [(h.chars _ (List.getElem_mem hlen)).1]
  have htrim : trim t = t := by
    rw [trim, trimStart, hstart, trimEnd]
    exact dropEndWhile_self fun c hc => (h.chars c (List.mem_of_getLast? hc)).1
  have hhost : withoutHost t = t := by
    rw [withoutHost]
    cases hcut : cut? [':', '/', '/'] t with
    | none => rfl
    | some p => exact absurd ⟨p.1, p.2, by simpa [schemeMark] using (eq_of_cut? hcut).symm⟩ h.scheme
  have htake : t.takeWhile (fun c => c != '?' && c != '#') = t := by
    apply List.takeWhile_eq_self_iff.mpr
    intro c hc
    simp [(h.chars c hc).2]
  rw [segments, String.toList_ofList, htrim, hhost, htake]
  rfl

section Joined

variable {base sub : List Char}

def seam (base sub : List Char) : List Char :=
  dropEndWhile (· == '/') base ++ '/' :: sub.dropWhile (· == '/')

/-- A path below another one starts with a slash, which is put there if need be. -/
theorem below_cases (base sub : List Char) :
    below base sub = dropEndWhile (· == '/') (seam base sub) ∨
      below base sub = '/' :: dropEndWhile (· == '/') (seam base sub) := by
  rw [below, ← seam]
  split <;> simp_all

theorem parts_below : parts (below base sub) = parts base ++ parts sub := by
  have hseam : parts (seam base sub) = parts base ++ parts sub := by
    rw [seam, parts_append_cons, parts_dropEndWhile, parts_dropWhile]
  rcases below_cases base sub with h | h
  · rw [h, parts_dropEndWhile, hseam]
  · rw [h, parts_cons, parts_dropEndWhile, hseam]

theorem joined_eq : joined base sub = '/' :: List.intercalate ['/'] (parts base ++ parts sub) := by
  rw [joined, List.filter_append]
  rfl

theorem arePieces_append : ArePieces (parts base ++ parts sub) :=
  List.forall_mem_append.mpr ⟨arePieces_parts base, arePieces_parts sub⟩

theorem parts_joined : parts (joined base sub) = parts base ++ parts sub := by
  rw [joined_eq, parts_cons, parts_intercalate arePieces_append]

theorem IsPlain.below (hbase : IsPlain base) (hsub : IsPlain sub) : IsPlain (below base sub) := by
  have hleft : dropEndWhile (· == '/') base <+: base := List.rdropWhile_prefix _ _
  have hright : sub.dropWhile (· == '/') <:+ sub := List.dropWhile_suffix _
  have hseam : ¬schemeMark <:+: seam base sub := by
    apply not_schemeMark_append
    · exact fun h => hbase.scheme (h.trans hleft.isInfix)
    · exact fun h => hsub.scheme (h.trans hright.isInfix)
    · intro hlast
      have hnot := List.head?_dropWhile_not (· == '/') base.reverse
      rw [dropEndWhile, List.getLast?_reverse] at hlast
      simp [hlast] at hnot
    · intro hhead
      have hnot := List.head?_dropWhile_not (· == '/') sub
      simp [hhead] at hnot
  have hcut : dropEndWhile (· == '/') (seam base sub) <+: seam base sub := List.rdropWhile_prefix _ _
  constructor
  · intro c hc
    have hmem : c = '/' ∨ c ∈ seam base sub := by
      rcases below_cases base sub with h | h
      · exact .inr (hcut.mem (h ▸ hc))
      · exact (List.mem_cons.mp (h ▸ hc)).imp_right hcut.mem
    rcases hmem with rfl | hmem
    · decide
    · rcases List.mem_append.mp hmem with hmem | hmem
      · exact hbase.chars c (hleft.mem hmem)
      · rcases List.mem_cons.mp hmem with rfl | hmem
        · decide
        · exact hsub.chars c (hright.mem hmem)
  · have hscheme : ¬schemeMark <:+: dropEndWhile (· == '/') (seam base sub) :=
      fun h => hseam (h.trans hcut.isInfix)
    rcases below_cases base sub with h | h
    · rwa [h]
    · rw [h]
      exact not_schemeMark_cons hscheme

theorem mem_intercalate {c : Char} (h : c ∈ List.intercalate ['/'] ps) : c = '/' ∨ ∃ p ∈ ps, c ∈ p := by
  induction ps with
  | nil => simp at h
  | cons p ps ih =>
    cases ps with
    | nil =>
      rw [List.intercalate_singleton] at h
      exact .inr ⟨p, List.mem_cons_self, h⟩
    | cons q qs =>
      rw [List.intercalate_cons_cons, List.append_assoc, List.singleton_append] at h
      rcases List.mem_append.mp h with h | h
      · exact .inr ⟨p, List.mem_cons_self, h⟩
      · rcases List.mem_cons.mp h with h | h
        · exact .inl h
        · exact (ih h).imp_right fun hq => hq.imp fun r hr => hr.imp_left (List.mem_cons_of_mem p)

theorem IsPlain.joined (hbase : IsPlain base) (hsub : IsPlain sub) : IsPlain (joined base sub) := by
  rw [joined_eq]
  constructor
  · intro c hc
    rcases List.mem_cons.mp hc with rfl | hc
    · decide
    · rcases mem_intercalate hc with rfl | ⟨p, hp, hc⟩
      · decide
      · rcases List.mem_append.mp hp with hp | hp
        · exact hbase.chars c (mem_of_mem_splitWhere (List.mem_filter.mp hp).1 hc).1
        · exact hsub.chars c (mem_of_mem_splitWhere (List.mem_filter.mp hp).1 hc).1
  · exact not_schemeMark_cons (not_schemeMark_intercalate arePieces_append)

theorem segments_below (hbase : IsPlain base) (hsub : IsPlain sub) :
    segments (String.ofList (below base sub)) =
      segments (String.ofList base) ++ segments (String.ofList sub) := by
  rw [(hbase.below hsub).segments_eq, parts_below, List.map_append, hbase.segments_eq, hsub.segments_eq]

theorem segments_joined (hbase : IsPlain base) (hsub : IsPlain sub) :
    segments (String.ofList (joined base sub)) =
      segments (String.ofList base) ++ segments (String.ofList sub) := by
  rw [(hbase.joined hsub).segments_eq, parts_joined, List.map_append, hbase.segments_eq, hsub.segments_eq]

end Joined

/-- Paths with the same segments are bound to the same endpoints. -/
theorem bestEndpoint_congr {path path' : String} (h : segments path = segments path') (m : Manifest)
    (contracts : List Contract) (o : Observation) (c : Candidate) :
    m.bestEndpoint contracts { o with path := some path } = .ok c ↔
      m.bestEndpoint contracts { o with path := some path' } = .ok c := by
  have hcandidates : m.candidates contracts o.method path = m.candidates contracts o.method path' := by
    simp only [Manifest.candidates, Manifest.pathVariants, h]
  simp only [Manifest.bestEndpoint, hcandidates]
  cases bestCandidates (m.candidates contracts o.method path') with
  | nil => simp
  | cons first more => cases more <;> simp

/-- The segments of a route that is put below a base path, in either way, are those of the base and then
those of the route. So both ways bind it to the same endpoint. -/
theorem routes_join_alike {base sub : List Char} (hbase : IsPlain base) (hsub : IsPlain sub) :
    segments (String.ofList (below base sub)) =
        segments (String.ofList base) ++ segments (String.ofList sub) ∧
      segments (String.ofList (joined base sub)) =
        segments (String.ofList base) ++ segments (String.ofList sub) ∧
      ∀ (m : Manifest) (contracts : List Contract) (o : Observation) (c : Candidate),
        m.bestEndpoint contracts { o with path := some (String.ofList (below base sub)) } = .ok c ↔
          m.bestEndpoint contracts { o with path := some (String.ofList (joined base sub)) } = .ok c := by
  have hbelow := segments_below hbase hsub
  have hjoined := segments_joined hbase hsub
  exact ⟨hbelow, hjoined, bestEndpoint_congr (hbelow.trans hjoined.symm)⟩

def ordersBase : List Char := ['/', 'v', '1', ':', '/']

def orderRoute : List Char := ['/', '/', 'o', 'r', 'd', 'e', 'r', 's', '/', '/', '{', 'i', 'd', '}', '/']

/-- The two ways write the path differently, with the same segments and without a scheme. -/
theorem order_routes_alike :
    String.ofList (below ordersBase orderRoute) = "/v1:/orders//\x7bid\x7d" ∧
      String.ofList (joined ordersBase orderRoute) = "/v1:/orders/\x7bid\x7d" ∧
      segments (String.ofList (below ordersBase orderRoute)) =
        [.literal "v1:", .literal "orders", .param] ∧
      segments (String.ofList (joined ordersBase orderRoute)) =
        [.literal "v1:", .literal "orders", .param] := by
  have hbase : IsPlain ordersBase := ⟨List.all_iff_forall_prop.mp (by decide), by decide⟩
  have hroute : IsPlain orderRoute := ⟨List.all_iff_forall_prop.mp (by decide), by decide⟩
  have hparts : segments (String.ofList ordersBase) ++ segments (String.ofList orderRoute) =
      [.literal "v1:", .literal "orders", .param] := by decide +kernel
  obtain ⟨hbelow, hjoined, -⟩ := routes_join_alike hbase hroute
  exact ⟨by decide, by decide, hbelow.trans hparts, hjoined.trans hparts⟩

end Concord.Route
