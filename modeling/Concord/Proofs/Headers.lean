import Concord.Proofs.Blocks
import Concord.Proofs.Nesting
import Concord.Proofs.Outcomes

/-! The header of a class ends at a colon, which is looked for through brackets and quotes alone.
The block of the class ends by indentation. The two agree unless the block is over before the colon.
-/
namespace Concord

namespace Python

open Source Text Pattern

theorem colonFrom?_eq_some {bs : List UInt8} {offset colon : Nat} {depth : Int}
    (h : colonFrom? bs offset depth = some colon) :
    ∃ n, colon = offset + n ∧ bs[n]? = some Byte.colon := by
  have hlater {b : UInt8} {rest : List UInt8} {offset : Nat}
      (h : ∃ n, colon = offset + 1 + n ∧ rest[n]? = some Byte.colon) :
      ∃ n, colon = offset + n ∧ (b :: rest)[n]? = some Byte.colon := by
    obtain ⟨n, rfl, hn⟩ := h
    exact ⟨n + 1, by omega, by simpa using hn⟩
  fun_induction colonFrom? bs offset depth with
  | case1 => simp at h
  | case2 b rest offset depth hb =>
    obtain rfl := Option.some.inj h
    have hb : b = Byte.colon := by simp at hb; exact hb.1
    exact ⟨0, rfl, by simp [hb]⟩
  | case3 b rest offset depth _ _ ih => exact hlater (ih h)
  | case4 b rest offset depth _ _ _ ih => exact hlater (ih h)
  | case5 b rest offset depth _ _ _ ih => exact hlater (ih h)

theorem headerColon?_eq_some {s : Source} {header colon : Nat} (h : headerColon? s header = some colon) :
    s.skeleton[colon]? = some Byte.colon := by
  obtain ⟨n, rfl, hn⟩ := colonFrom?_eq_some h
  exact (getElem?_bare_eq_some hn).2

theorem headerColon?_lt {s : Source} {header colon : Nat} (h : headerColon? s header = some colon) :
    colon < s.skeleton.size :=
  (Array.getElem?_eq_some_iff.mp (headerColon?_eq_some h)).1

/-- A match of the class pattern whose header is complete: the name, the bracket that closes the
bases if there are any, and the colon. -/
structure CompleteHeader (s : Source) (m : Match) (name : Part) (colon : Nat) : Prop where
  found : m ∈ s.matchesOf classHead
  name_eq : m.part? 1 = some name
  bases_closed : ∀ p, m.part? 2 = some p → (s.closing? p.start).isSome = true
  colon_eq : headerColon? s name.start = some colon

theorem classDecl?_error_iff {s : Source} {m : Match} (hm : m ∈ s.matchesOf classHead) :
    (∃ r, classDecl? s m = .error r) ↔
      ∃ name colon, CompleteHeader s m name colon ∧ s.blockEnd name.start < colon + 1 := by
  constructor
  · rintro ⟨r, hr⟩
    unfold classDecl? at hr
    dsimp only at hr
    split at hr
    · next bases name hbases hname =>
      split at hr
      · simp at hr
      · next colon hcolon =>
        split at hr
        · next hlt =>
          refine ⟨name, colon, ⟨hm, hname, fun p hp => ?_, hcolon⟩, hlt⟩
          rw [hp] at hbases
          exact Option.isSome_iff_exists.mpr ((Option.map_eq_some_iff.mp hbases).imp fun _ h => h.1)
        · simp at hr
    · simp at hr
  · rintro ⟨name, colon, h, hlt⟩
    refine ⟨.inverted (colon + 1) (s.blockEnd name.start), ?_⟩
    unfold classDecl?
    cases hbases : m.part? 2 with
    | none => simp [h.name_eq, h.colon_eq, hlt]
    | some p =>
      obtain ⟨close, hclose⟩ := Option.isSome_iff_exists.mp (h.bases_closed p hbases)
      simp [hclose, h.name_eq, h.colon_eq, hlt]

theorem declarations_error_iff (s : Source) :
    (∃ r, declarations s = .error r) ↔
      ∃ m name colon, CompleteHeader s m name colon ∧ s.blockEnd name.start < colon + 1 := by
  unfold declarations
  rw [bind_error_iff (by exact fun _ => ⟨_, rfl⟩), mapM_error_iff]
  constructor
  · rintro ⟨m, hm, hr⟩
    obtain ⟨name, colon, h⟩ := (classDecl?_error_iff hm).mp hr
    exact ⟨m, name, colon, h⟩
  · rintro ⟨m, name, colon, h, hlt⟩
    exact ⟨m, h.found, (classDecl?_error_iff h.found).mpr ⟨name, colon, h, hlt⟩⟩

/-- The range of a class body is in order exactly if the block is not over at the colon, and an
extraction gives a result or says why the text cannot be read exactly if that holds for every
complete header. -/
theorem body_range_ordered_iff (path content : String) :
    (∀ s header colon, read Language.python.lexis path content = .ok s →
        headerColon? s header = some colon →
        (colon + 1 ≤ s.blockEnd header ↔ ¬BlockOver s header colon)) ∧
      (((∃ x, extract .python path content = .ok x) ∨
          ∃ e, extract .python path content = .error (.parse e)) ↔
        ∀ s m name colon, read Language.python.lexis path content = .ok s →
          CompleteHeader s m name colon → ¬BlockOver s name.start colon) := by
  have hrange (s : Source) (header colon : Nat)
      (hread : read Language.python.lexis path content = .ok s)
      (hcolon : headerColon? s header = some colon) :
      colon + 1 ≤ s.blockEnd header ↔ ¬BlockOver s header colon := by
    have hs := aligned_of_read hread
    rw [← hs.blockEnd_le_iff (by rw [← hs.skeleton_size]; exact headerColon?_lt hcolon)]
    omega
  refine ⟨hrange, ?_⟩
  rw [extract_settled_iff]
  constructor
  · intro h s m name colon hread hm
    rw [← hrange s _ _ hread hm.colon_eq]
    by_contra hlt
    exact exists_ok_iff.mp (h s hread).1
      ((declarations_error_iff s).mpr ⟨m, name, colon, hm, by omega⟩)
  · intro h s hread
    refine ⟨exists_ok_iff.mpr fun herr => ?_, _, rfl⟩
    obtain ⟨m, name, colon, hm, hlt⟩ := (declarations_error_iff s).mp herr
    have := (hrange s _ _ hread hm.colon_eq).mpr (h s m name colon hread hm)
    omega

/-- Inside a literal the class pattern meets a header that the next statement's colon ends. -/
def classInLiteral : String := "\"\"\"\nclass of things\n\"\"\"\nx: int = 1\n"

theorem body_range_inverted_in_literal :
    ¬((∃ x, extract .python "m.py" classInLiteral = .ok x) ∨
        ∃ e, extract .python "m.py" classInLiteral = .error (.parse e)) ∧
      ∃ s m name colon, CompleteHeader s m name colon ∧ BlockOver s name.start colon ∧
        s.blockEnd name.start < colon + 1 := by
  have hfail : (match extract .python "m.py" classInLiteral with
      | .error (.cut c) => some c
      | _ => none) = some (.inverted 26 20) := by decide +kernel
  obtain ⟨hrange, hsettled⟩ := body_range_ordered_iff "m.py" classInLiteral
  have hunsettled : ¬((∃ x, extract .python "m.py" classInLiteral = .ok x) ∨
      ∃ e, extract .python "m.py" classInLiteral = .error (.parse e)) := by
    rintro (⟨x, hx⟩ | ⟨e, he⟩)
    · simp [hx] at hfail
    · simp [he] at hfail
  refine ⟨hunsettled, ?_⟩
  rw [hsettled] at hunsettled
  simp only [not_forall, not_not, exists_prop] at hunsettled
  obtain ⟨s, m, name, colon, hread, hm, hover⟩ := hunsettled
  have hiff := hrange s name.start colon hread hm.colon_eq
  exact ⟨s, m, name, colon, hm, hover, Nat.lt_of_not_le fun hle => hiff.mp hle hover⟩

end Python

end Concord
