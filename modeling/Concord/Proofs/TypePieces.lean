import Mathlib.Tactic.SplitIfs
import Concord.Literal.TypeList
import Concord.Proofs.Cuts
import Concord.Proofs.ScalarTexts

/-! A text whose brackets and quotes are closed is passed over by the search for separators, but for
the separators outside them. So a list of such texts is found again in the text that joins them, and
a name with arguments gives its name and its arguments. -/
namespace Concord.Literal

open Text

variable {us : List (List Char)} {glue : List Char}

def isOpening (c : Char) : Bool := c == '(' || c == '[' || c == '{' || c == '<'

def isClosing (c : Char) : Bool := c == ')' || c == ']' || c == '}' || c == '>'

def isPlain (c : Char) : Bool := !isQuote c && !isOpening c && !isClosing c && c != '='

theorem isPlain_iff {c : Char} : isPlain c = true ↔
    isQuote c = false ∧ isOpening c = false ∧ isClosing c = false ∧ c ≠ '=' := by
  simp [isPlain, and_assoc]

theorem isPlain_of {p : Char → Bool} {c : Char} (hc : p c = true)
    (hmarks : ['"', '\'', '`', '(', '[', '{', '<', ')', ']', '}', '>', '='].all (!p ·) = true) :
    isPlain c = true := by
  have hne (d : Char) (hd : (!p d) = true) : c ≠ d := by
    rintro rfl
    simp [hc] at hd
  simp only [List.all_cons, List.all_nil, Bool.and_eq_true] at hmarks
  grind [isPlain, isQuote, isOpening, isClosing]

theorem isPlain_of_isBlank {c : Char} (hc : isBlank c = true) : isPlain c = true :=
  isPlain_of hc (by decide)

/-- A text with closed quotes and brackets, in which the characters outside them satisfy `top`. -/
inductive Balanced : (top : Char → Bool) → List Char → Prop
  | nil {top} : Balanced top []
  | plain {top c u} (hc : isPlain c = true) (htop : top c = true) (hu : Balanced top u) :
    Balanced top (c :: u)
  | quoted {top q v u} (hq : isQuote q = true) (hv : q ∉ v) (hu : Balanced top u) :
    Balanced top (q :: (v ++ q :: u))
  | bracketed {top a b v u} (ha : isOpening a = true) (hb : isClosing b = true)
    (hv : Balanced (fun _ => true) v) (hu : Balanced top u) : Balanced top (a :: (v ++ b :: u))

namespace Balanced

variable {top : Char → Bool} {u v : List Char}

theorem append (hu : Balanced top u) (hv : Balanced top v) : Balanced top (u ++ v) := by
  induction hu with
  | nil => exact hv
  | plain hc htop _ ih => exact .plain hc htop (ih hv)
  | quoted hq hquote _ ih => simpa using Balanced.quoted hq hquote (ih hv)
  | bracketed ha hb hinner _ _ ih => simpa using Balanced.bracketed ha hb hinner (ih hv)

theorem mono {top' : Char → Bool} (hu : Balanced top u) (h : ∀ c, top c = true → top' c = true) :
    Balanced top' u := by
  induction hu with
  | nil => exact .nil
  | plain hc htop _ ih => exact .plain hc (h _ htop) (ih h)
  | quoted hq hquote _ ih => exact .quoted hq hquote (ih h)
  | bracketed ha hb hinner _ _ ih => exact .bracketed ha hb hinner (ih h)

theorem of_plain (h : ∀ c ∈ u, isPlain c = true ∧ top c = true) : Balanced top u := by
  induction u with
  | nil => exact .nil
  | cons c u ih =>
    obtain ⟨hc, hu⟩ := List.forall_mem_cons.mp h
    exact .plain hc.1 hc.2 (ih hu)

theorem of_quoted {q : Char} (hq : isQuote q = true) (hv : q ∉ v) : Balanced top (q :: (v ++ [q])) :=
  .quoted hq hv .nil

theorem of_bracketed {a b : Char} (ha : isOpening a = true) (hb : isClosing b = true)
    (hv : Balanced top v) : Balanced top' (a :: (v ++ [b])) :=
  .bracketed ha hb (hv.mono fun _ _ => rfl) .nil

theorem head (h : Balanced top u) :
    ∀ c ∈ u.head?, top c = true ∨ isQuote c = true ∨ isOpening c = true := by
  cases h with
  | nil => simp
  | plain _ htop _ => simp [htop]
  | quoted hq _ _ => simp [hq]
  | bracketed ha _ _ _ => simp [ha]

theorem last_cons {p : Char → Prop} {c : Char} (hc : p c) (hu : ∀ d ∈ u.getLast?, p d) (v : List Char) :
    ∀ d ∈ (v ++ c :: u).getLast?, p d := by
  intro d hd
  rw [List.getLast?_append, List.getLast?_cons, Option.some_or] at hd
  cases hlast : u.getLast? with
  | none =>
    obtain rfl : c = d := by simpa [hlast] using hd
    exact hc
  | some e =>
    obtain rfl : e = d := by simpa [hlast] using hd
    exact hu e hlast

theorem last (h : Balanced top u) :
    ∀ c ∈ u.getLast?, top c = true ∨ isQuote c = true ∨ isClosing c = true := by
  induction h with
  | nil => simp
  | plain _ htop _ ih => exact last_cons (.inl htop) ih []
  | @quoted _ q v _ hq _ _ ih => exact last_cons (.inr (.inl hq)) ih (q :: v)
  | @bracketed _ a _ v _ _ hb _ _ _ ih => exact last_cons (.inr (.inr hb)) ih (a :: v)

end Balanced

/-- Pieces of which the first one has `u` before it. -/
def attach (u : List Char) : List (List Char) → List (List Char)
  | [] => [u]
  | p :: ps => (u ++ p) :: ps

theorem attach_append (u v : List Char) (ps : List (List Char)) :
    attach (u ++ v) ps = attach u (attach v ps) := by
  cases ps with
  | nil => rfl
  | cons p ps => simp [attach]

variable {sep prior : Char} {depth : Int} {u v rest : List Char} {top : Char → Bool}

theorem typePieces_ne_nil (sep : Char) (quote : Option Char) (depth : Int) (prior : Char)
    (t : List Char) : typePieces sep quote depth prior t ≠ [] := by
  fun_cases typePieces sep quote depth prior t
  all_goals grind

theorem attach_nil_typePieces :
    attach [] (typePieces sep none depth prior rest) = typePieces sep none depth prior rest := by
  have hne := typePieces_ne_nil sep none depth prior rest
  cases h : typePieces sep none depth prior rest with
  | nil => exact absurd h hne
  | cons p ps => rfl

theorem typePieces_some {q c : Char} : typePieces sep (some q) depth prior (c :: rest) =
    attach [c] (typePieces sep (if c == q then none else some q) depth c rest) := by
  rw [typePieces]
  generalize typePieces sep _ depth c rest = ps
  cases ps <;> rfl

theorem typePieces_none {c : Char} : typePieces sep none depth prior (c :: rest) =
    if isQuote c then attach [c] (typePieces sep (some c) depth c rest)
    else if isOpening c then attach [c] (typePieces sep none (depth + 1) c rest)
    else if c == '>' && prior == '=' then attach [c] (typePieces sep none depth c rest)
    else if isClosing c then attach [c] (typePieces sep none (depth - 1) c rest)
    else if c == sep && depth == 0 then [] :: typePieces sep none depth c rest
    else attach [c] (typePieces sep none depth c rest) := by
  rw [typePieces, ← isOpening, ← isClosing]
  split_ifs
  all_goals
    generalize typePieces sep _ _ c rest = ps
    cases ps <;> rfl

theorem typePieces_plain {c : Char} (hc : isPlain c = true) (hcut : depth ≠ 0 ∨ c ≠ sep) :
    typePieces sep none depth prior (c :: rest) = attach [c] (typePieces sep none depth c rest) := by
  obtain ⟨hquote, hopening, hclosing, -⟩ := isPlain_iff.mp hc
  have hsep : (c == sep && depth == 0) = false := by grind
  simp [typePieces_none, hquote, hopening, hclosing, hsep]

theorem typePieces_sep (hsep : isPlain sep = true) :
    typePieces sep none 0 prior (sep :: rest) = [] :: typePieces sep none 0 sep rest := by
  obtain ⟨hquote, hopening, hclosing, -⟩ := isPlain_iff.mp hsep
  have harrow : sep ≠ '>' := by
    rintro rfl
    simp [isClosing] at hclosing
  simp [typePieces_none, hquote, hopening, hclosing, harrow]

theorem typePieces_opening {a : Char} (ha : isOpening a = true) :
    typePieces sep none depth prior (a :: rest) =
      attach [a] (typePieces sep none (depth + 1) a rest) := by
  have hquote : isQuote a = false := by grind [isOpening, isQuote]
  simp [typePieces_none, hquote, ha]

theorem typePieces_closing {b : Char} (hb : isClosing b = true) (hprior : prior ≠ '=') :
    typePieces sep none depth prior (b :: rest) =
      attach [b] (typePieces sep none (depth - 1) b rest) := by
  have hquote : isQuote b = false := by grind [isClosing, isQuote]
  have hopening : isOpening b = false := by grind [isClosing, isOpening]
  simp [typePieces_none, hquote, hopening, hprior, hb]

theorem typePieces_inside {q : Char} (hv : q ∉ v) :
    typePieces sep (some q) depth prior (v ++ q :: rest) =
      attach (v ++ [q]) (typePieces sep none depth q rest) := by
  induction v generalizing prior with
  | nil => simp [typePieces_some]
  | cons c v ih =>
    obtain ⟨hc, hv⟩ : q ≠ c ∧ q ∉ v := by simpa using hv
    have hmark : (c == q) = false := beq_false_of_ne (Ne.symm hc)
    rw [List.cons_append, typePieces_some, hmark, if_neg (by simp), ih hv, ← attach_append]
    rfl

theorem typePieces_quoted {q : Char} (hq : isQuote q = true) (hv : q ∉ v) :
    typePieces sep none depth prior (q :: (v ++ q :: rest)) =
      attach (q :: (v ++ [q])) (typePieces sep none depth q rest) := by
  rw [typePieces_none, if_pos hq, typePieces_inside hv, ← attach_append]
  rfl

theorem ne_equals_of_isQuote {q : Char} (hq : isQuote q = true) : q ≠ '=' := by
  rintro rfl
  simp [isQuote] at hq

/-- A balanced text is taken into the piece as a whole: inside brackets, and outside them if it has no
separator there. What comes next is not read as the end of an arrow. -/
theorem Balanced.typePieces_append (hu : Balanced top u)
    (hdepth : 0 < depth ∨ depth = 0 ∧ top sep = false) (hprior : prior ≠ '=') (rest : List Char) :
    ∃ prior', prior' ≠ '=' ∧
      typePieces sep none depth prior (u ++ rest) =
        attach u (typePieces sep none depth prior' rest) := by
  induction hu generalizing depth prior rest with
  | nil => exact ⟨prior, hprior, attach_nil_typePieces.symm⟩
  | @plain top c u hc htop _ ih =>
    have hcut : depth ≠ 0 ∨ c ≠ sep := by
      by_cases hsep : c = sep
      · subst hsep
        simp [htop] at hdepth
        omega
      · exact .inr hsep
    have hmark : c ≠ '=' := by
      rintro rfl
      simp [isPlain] at hc
    obtain ⟨prior', hprior', hrest⟩ := ih hdepth hmark rest
    refine ⟨prior', hprior', ?_⟩
    rw [List.cons_append, typePieces_plain hc hcut, hrest]
    exact (attach_append [c] u _).symm
  | @quoted top q v u hq hv _ ih =>
    obtain ⟨prior', hprior', hrest⟩ := ih hdepth (ne_equals_of_isQuote hq) rest
    refine ⟨prior', hprior', ?_⟩
    have htext : q :: (v ++ q :: u) ++ rest = q :: (v ++ q :: (u ++ rest)) := by simp
    rw [htext, typePieces_quoted hq hv, hrest, ← attach_append]
    simp
  | @bracketed top a b v u ha hb _ _ ihv ihu =>
    -- Inside the brackets the depth is positive, so no character there is taken for a separator.
    have hinner : 0 < depth + 1 := by omega
    have hopening : a ≠ '=' := by
      rintro rfl
      simp [isOpening] at ha
    have hclosing : b ≠ '=' := by
      rintro rfl
      simp [isClosing] at hb
    obtain ⟨last, hlast, hv⟩ := ihv (.inl hinner) hopening (b :: (u ++ rest))
    obtain ⟨prior', hprior', hrest⟩ := ihu hdepth hclosing rest
    refine ⟨prior', hprior', ?_⟩
    have htext : a :: (v ++ b :: u) ++ rest = a :: (v ++ b :: (u ++ rest)) := by simp
    rw [htext, typePieces_opening ha, hv, typePieces_closing hb hlast, Int.add_sub_cancel, hrest]
    simp only [← attach_append]
    simp

def joinedBy (glue : List Char) : List (List Char) → List Char
  | [] => []
  | [u] => u
  | u :: us => u ++ (glue ++ joinedBy glue us)

theorem Balanced.joined (hglue : Balanced top glue) (hus : ∀ u ∈ us, Balanced top u) :
    Balanced top (joinedBy glue us) := by
  fun_induction joinedBy glue us with
  | case1 => exact .nil
  | case2 u => exact hus u (by simp)
  | case3 u us _ ih =>
    obtain ⟨hu, hus⟩ := List.forall_mem_cons.mp hus
    exact hu.append (hglue.append (ih hus))

theorem head_joined (hne : ∀ u ∈ us, u ≠ []) :
    ∀ c ∈ (joinedBy glue us).head?, ∃ u ∈ us, c ∈ u.head? := by
  intro c hc
  fun_cases joinedBy glue us with
  | case1 => simp [joinedBy] at hc
  | case2 u => exact ⟨u, by simp, hc⟩
  | case3 u us _ =>
    obtain ⟨d, u, rfl⟩ := List.exists_cons_of_ne_nil (hne u (by simp))
    exact ⟨d :: u, by simp, by simpa [joinedBy] using hc⟩

theorem joinedBy_ne_nil (hne : ∀ u ∈ us, u ≠ []) (hsome : us ≠ []) : joinedBy glue us ≠ [] := by
  fun_cases joinedBy glue us with
  | case1 => exact absurd rfl hsome
  | case2 u => exact hne u (by simp)
  | case3 u us _ => simp [hne u (by simp)]

theorem last_joined (hne : ∀ u ∈ us, u ≠ []) :
    ∀ c ∈ (joinedBy glue us).getLast?, ∃ u ∈ us, c ∈ u.getLast? := by
  fun_induction joinedBy glue us with
  | case1 => simp
  | case2 u => exact fun c hc => ⟨u, by simp, hc⟩
  | case3 u us hsome ih =>
    obtain ⟨-, hne⟩ := List.forall_mem_cons.mp hne
    intro c hc
    have htail : (u ++ (glue ++ joinedBy glue us)).getLast? = (joinedBy glue us).getLast? := by
      have hlast : joinedBy glue us ≠ [] := joinedBy_ne_nil hne hsome
      rw [← List.append_assoc, List.getLast?_append, List.getLast?_eq_some_getLast hlast, Option.some_or]
    rw [htail] at hc
    obtain ⟨w, hw, hcw⟩ := ih hne c hc
    exact ⟨w, by simp [hw], hcw⟩

theorem isTrimmed_joined (hus : ∀ u ∈ us, IsTrimmed u) (hsome : us ≠ []) :
    IsTrimmed (joinedBy glue us) := by
  have hne : ∀ u ∈ us, u ≠ [] := fun u hu => (hus u hu).ne_nil
  constructor
  · exact joinedBy_ne_nil hne hsome
  · intro c hc
    obtain ⟨u, hu, hcu⟩ := head_joined hne c hc
    exact (hus u hu).head c hcu
  · intro c hc
    obtain ⟨u, hu, hcu⟩ := last_joined hne c hc
    exact (hus u hu).last c hcu

/-- A text that is found again as a part of a list with the separator `sep`. -/
structure IsPart (sep : Char) (u : List Char) : Prop where
  trimmed : IsTrimmed u
  balanced : Balanced (· != sep) u

theorem balanced_blanks {blanks : List Char} (hspace : top ' ' = true) (h : ∀ c ∈ blanks, c = ' ') :
    Balanced top blanks :=
  .of_plain fun c hc => h c hc ▸ ⟨rfl, hspace⟩

theorem map_trim_typePieces {blanks lead : List Char} (hsep : isPlain sep = true) (hspace : sep ≠ ' ')
    (hus : ∀ u ∈ us, IsPart sep u) (hne : us ≠ []) (hblanks : ∀ c ∈ blanks, c = ' ')
    (hlead : ∀ c ∈ lead, c = ' ') (hprior : prior ≠ '=') :
    (typePieces sep none 0 prior (lead ++ joinedBy (blanks ++ [sep, ' ']) us)).map trim = us := by
  have hblank (t : List Char) (ht : ∀ c ∈ t, c = ' ') : ∀ c ∈ t, isBlank c = true := by
    intro c hc
    rw [ht c hc]
    decide
  have htop : ((fun c => c != sep) ' ') = true := by simpa using hspace.symm
  have hcut : (fun c => c != sep) sep = false := by simp
  -- From the second part on, the blank after the separator leads the piece.
  induction us generalizing prior lead with
  | nil => exact absurd rfl hne
  | cons u us ih =>
    obtain ⟨hu, hus⟩ := List.forall_mem_cons.mp hus
    have hfirst : Balanced (· != sep) (lead ++ u) := (balanced_blanks htop hlead).append hu.balanced
    cases us with
    | nil =>
      obtain ⟨prior', -, hpieces⟩ := hfirst.typePieces_append (.inr ⟨rfl, hcut⟩) hprior []
      rw [List.append_nil] at hpieces
      rw [joinedBy, hpieces]
      simp [typePieces, attach, hu.trimmed.trim_append (hblank lead hlead)]
    | cons w ws =>
      have hpiece : Balanced (· != sep) (lead ++ (u ++ blanks)) := by
        rw [← List.append_assoc]
        exact hfirst.append (balanced_blanks htop hblanks)
      have htext : lead ++ joinedBy (blanks ++ [sep, ' ']) (u :: w :: ws) =
          lead ++ (u ++ blanks) ++ sep :: ([' '] ++ joinedBy (blanks ++ [sep, ' ']) (w :: ws)) := by
        simp [joinedBy]
      have hmark : sep ≠ '=' := by
        rintro rfl
        simp [isPlain] at hsep
      obtain ⟨prior', -, hpieces⟩ := hpiece.typePieces_append (.inr ⟨rfl, hcut⟩) hprior
        (sep :: ([' '] ++ joinedBy (blanks ++ [sep, ' ']) (w :: ws)))
      rw [htext, hpieces, typePieces_sep hsep, attach, List.append_nil, List.map_cons,
        ih hus (by simp) (by simp) hmark, hu.trimmed.trim_eq (hblank lead hlead) (hblank blanks hblanks)]

/-- The parts of a list are found again in the text that joins them. -/
theorem typeList_joined {blanks : List Char} (hsep : isPlain sep = true) (hspace : sep ≠ ' ')
    (hblanks : ∀ c ∈ blanks, c = ' ') (hus : ∀ u ∈ us, IsPart sep u) :
    typeList sep (joinedBy (blanks ++ [sep, ' ']) us) = us := by
  rw [typeList]
  by_cases hne : us = []
  · subst hne
    rfl
  · have hpieces : (typePieces sep none 0 ' ' (joinedBy (blanks ++ [sep, ' ']) us)).map trim = us :=
      map_trim_typePieces hsep hspace hus hne hblanks (List.forall_mem_nil _) (by decide)
    rw [hpieces, List.filter_eq_self]
    intro u hu
    simpa using (hus u hu).trimmed.ne_nil

theorem typeList_single (hsep : isPlain sep = true) (hspace : sep ≠ ' ') (hu : IsPart sep u) :
    typeList sep u = [u] := by
  have hparts : ∀ w ∈ [u], IsPart sep w := by simpa using hu
  exact typeList_joined hsep hspace (List.forall_mem_nil _) hparts

def arguments (a b : Char) (us : List (List Char)) : List Char :=
  if us.isEmpty then [] else a :: (joinedBy [',', ' '] us ++ [b])

theorem isTrimmed_single {c : Char} (hc : isBlank c = false) : IsTrimmed [c] :=
  ⟨by simp, by simpa using hc, by simpa using hc⟩

theorem isTrimmed_arguments {a b : Char} {name : List Char} (hname : IsTrimmed name)
    (hb : isBlank b = false) : IsTrimmed (name ++ arguments a b us) := by
  rw [arguments]
  split
  · rwa [List.append_nil]
  · exact hname.append (isTrimmed_single hb) (a :: joinedBy [',', ' '] us)

theorem generic_arguments {a b : Char} {name : List Char} (hname : IsTrimmed name) (ha : a ∉ name)
    (hb : isBlank b = false) (hus : ∀ u ∈ us, IsPart ',' u) :
    generic a b (name ++ arguments a b us) = (name, us) := by
  have hplain : ∀ c ∈ name, (c == a) = false := by
    intro c hc
    exact beq_false_of_ne fun h => ha (h ▸ hc)
  rw [generic, (isTrimmed_arguments hname hb).trim_self]
  by_cases hne : us = []
  · subst hne
    have htext : name ++ arguments a b [] = name := by simp [arguments]
    simp only [htext, cutWhere?_eq_none hplain]
  · have htext : name ++ arguments a b us = name ++ a :: (joinedBy [',', ' '] us ++ [b]) := by
      simp [arguments, hne]
    have hlast : (name ++ a :: (joinedBy [',', ' '] us ++ [b])).getLast? = some b := by
      rw [← List.cons_append, ← List.append_assoc, List.getLast?_concat]
    have hlist : typeList ',' (joinedBy [',', ' '] us) = us :=
      typeList_joined rfl (by decide) (List.forall_mem_nil _) hus
    simp only [htext, cutWhere?_append hplain (beq_self_eq_true a), hlast, List.dropLast_concat, hlist,
      hname.trim_self]
    simp [hname.ne_nil]

end Concord.Literal
