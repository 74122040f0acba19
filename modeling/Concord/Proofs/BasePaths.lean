import Mathlib.Data.List.TakeWhile
import Concord.Proofs.Selection

/-! Clients write the base path of a server before the path of an endpoint. Such a call is also read
without the base path, but only if something is left of it then, so a call to the base path itself
does not reach an endpoint at the root. -/
namespace Concord

open Route

/-- The segments that the base address of a service puts before its paths. -/
def Service.baseSegments (s : Service) : List Segment := (s.basePath?.map segments).getD []

/-- A service of the manifest that serves a contract. -/
def Manifest.Serves (m : Manifest) (c : Contract) (s : Service) : Prop :=
  ∃ id ∈ c.servicesIn c.serverRole, m.service? id = some s

section Variants

variable {m : Manifest} {c : Contract} {s : Service} {path : String} {full v : List Segment}

theorem strip_eq_some_iff {base : List Segment} :
    (if base.length < full.length && base.isPrefixOf full then some (full.drop base.length)
      else none) = some v ↔ full = base ++ v ∧ v ≠ [] := by
  rw [Option.ite_none_right_eq_some, Bool.and_eq_true, decide_eq_true_iff, List.isPrefixOf_iff_prefix,
    Option.some_inj]
  constructor
  · rintro ⟨⟨hlength, hprefix⟩, rfl⟩
    exact ⟨(List.prefix_iff_eq_append.mp hprefix).symm, by simpa using hlength⟩
  · rintro ⟨rfl, hv⟩
    simp [List.length_pos_iff.mpr hv]

/-- The readings of a path: as it is, what follows the base path of a server, and what follows
parameters at its start. -/
theorem mem_pathVariants : v ∈ m.pathVariants c path ↔ v = segments path ∨
    (∃ s, m.Serves c s ∧ ∃ b, s.basePath? = some b ∧ segments path = segments b ++ v ∧ v ≠ []) ∨
    v = (segments path).dropWhile (· == .param) ∧ v.length < (segments path).length := by
  unfold Manifest.pathVariants Manifest.Serves
  simp only [List.cons_append, List.mem_cons, List.mem_append, List.mem_filterMap,
    Option.bind_eq_some_iff, strip_eq_some_iff]
  refine or_congr_right (or_congr ?_ ?_)
  · constructor
    · rintro ⟨id, hid, b, ⟨s, hs, hb⟩, hv⟩
      exact ⟨s, ⟨id, hid, hs⟩, b, hb, hv⟩
    · rintro ⟨s, ⟨id, hid, hs⟩, b, hb, hv⟩
      exact ⟨id, hid, b, ⟨s, hs, hb⟩, hv⟩
  · rw [List.mem_ite_nil_right, List.mem_singleton, and_comm]
    refine and_congr_right fun hv => ?_
    rw [hv]

theorem mem_pathVariants_of_base (hs : m.Serves c s) (hpath : segments path = s.baseSegments ++ v)
    (hv : v ≠ []) : v ∈ m.pathVariants c path := by
  rw [mem_pathVariants]
  cases hbase : s.basePath? with
  | none => exact .inl (by simpa [Service.baseSegments, hbase] using hpath.symm)
  | some b =>
    have hb : s.baseSegments = segments b := by simp [Service.baseSegments, hbase]
    rw [hb] at hpath
    exact .inr (.inl ⟨s, hs, b, hbase, hpath, hv⟩)

theorem nil_mem_pathVariants : [] ∈ m.pathVariants c path ↔ ∀ x ∈ segments path, x = .param := by
  have hdrop : (segments path).dropWhile (· == .param) = [] ↔ ∀ x ∈ segments path, x = .param := by
    simp [List.dropWhile_eq_nil_iff]
  rw [mem_pathVariants]
  constructor
  · rintro (h | ⟨-, -, -, -, -, hne⟩ | ⟨h, -⟩)
    · simp [← h]
    · exact absurd rfl hne
    · exact hdrop.mp h.symm
  · intro h
    by_cases hnil : segments path = []
    · exact .inl hnil.symm
    · exact .inr (.inr ⟨(hdrop.mpr h).symm, List.length_pos_iff.mpr hnil⟩)

end Variants

/-- A call with the base path of a server before the path of an endpoint has a reading that matches
the endpoint exactly if and only if that path is not the root, or the base path is all parameters.
Otherwise no reading matches the endpoint at all. -/
theorem based_call_matches_iff (m : Manifest) (c : Contract) (e : Endpoint) (s : Service)
    (path : String) (hs : m.Serves c s)
    (hpath : segments path = s.baseSegments ++ segments e.path) :
    ((∃ v ∈ m.pathVariants c path, MatchQuality.of? v (segments e.path) = some .exact) ↔
      segments e.path ≠ [] ∨ ∀ x ∈ s.baseSegments, x = .param) ∧
    (segments e.path = [] → (∃ x ∈ s.baseSegments, x ≠ .param) →
      e.quality? (m.pathVariants c path) = none) := by
  have hexact : (∃ v ∈ m.pathVariants c path, MatchQuality.of? v (segments e.path) = some .exact) ↔
      segments e.path ∈ m.pathVariants c path := by
    simp [MatchQuality.of?_eq_some_iff, MatchQuality.Matches]
  rw [hexact]
  by_cases hroot : segments e.path = []
  · have hbase : segments path = s.baseSegments := by rw [hpath, hroot, List.append_nil]
    rw [hroot, nil_mem_pathVariants, hbase]
    refine ⟨by simp, fun _ hliteral => ?_⟩
    -- A reading that matches the root is empty.
    rw [Option.eq_none_iff_forall_ne_some]
    intro q hq
    obtain ⟨⟨v, hv, hmatches⟩, -⟩ := Endpoint.quality?_eq_some_iff.mp hq
    have hnil : v = [] := by
      have hforall := MatchQuality.exists_matches_iff.mp ⟨q, hmatches⟩
      rwa [hroot, List.forall₂_nil_right_iff] at hforall
    obtain ⟨x, hx, hne⟩ := hliteral
    exact hne (nil_mem_pathVariants.mp (hnil ▸ hv) x (hbase ▸ hx))
  · have hmem := mem_pathVariants_of_base hs hpath hroot
    exact ⟨iff_of_true hmem (.inl hroot), fun h => absurd h hroot⟩

def allOrders : Endpoint := ⟨"GET", "/", none, [], []⟩

/-- A call to the base path of the shop does not reach the endpoint at the root, while calls below it
reach theirs. -/
theorem root_below_base_unmatched :
    segments "/api" = Service.baseSegments ⟨"shop", .go, some "http://shop/api", none⟩ ++
        segments allOrders.path ∧
      allOrders.quality? (orderShop.pathVariants (orderContract [allOrders, newOrder]) "/api") =
        none ∧
      ∃ v ∈ orderShop.pathVariants (orderContract [allOrders, newOrder]) "/api/orders/new",
        MatchQuality.of? v (segments newOrder.path) = some .exact := by
  have hserves : orderShop.Serves (orderContract [allOrders, newOrder])
      ⟨"shop", .go, some "http://shop/api", none⟩ := ⟨"shop", by decide, rfl⟩
  have hroot : segments "/api" = Service.baseSegments ⟨"shop", .go, some "http://shop/api", none⟩ ++
      segments allOrders.path := by decide +kernel
  refine ⟨hroot, ?_, ?_⟩
  · exact (based_call_matches_iff _ _ allOrders _ "/api" hserves hroot).2 (by decide +kernel)
      (by decide +kernel)
  · exact (based_call_matches_iff _ _ newOrder _ "/api/orders/new" hserves (by decide +kernel)).1.mpr
      (.inl (by decide +kernel))

end Concord
