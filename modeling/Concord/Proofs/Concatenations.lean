import Concord.Proofs.PathTemplates

/-! A URL expression may add up literals and other operands. Where two literals stand side by side
the template has a hole between them, as if another operand stood there. -/
namespace Concord.Literal

open Text

variable {es os : List Operand}

def isPathChar (c : Char) : Bool := isAlphanumeric c || ['-', '_', '.', '/'].contains c

inductive Part
  | path (t : List Char)
  /-- A value in braces, to be filled in. -/
  | value (name : List Char)
  /-- A value that a format string fills in. -/
  | verb (v : Char)

namespace Part

def written : Part → List Char
  | .path t => t
  | .value name => '{' :: (name ++ ['}'])
  | .verb v => ['%', v]

def template : Part → List Char
  | .path t => t
  | .value _ => hole
  | .verb _ => hole

/-- Whether a part is written so that it ends where it should. -/
def isSound : Part → Bool
  | .path t => t.all isPathChar
  | .value name => name.all fun c => !(['\\', '{', '}'].contains c)
  | .verb v => isVerb v

end Part

inductive Operand
  | literal (parts : List Part)
  /-- An operand that is no literal. -/
  | other (text : List Char)

namespace Operand

def isLiteral : Operand → Bool
  | .literal _ => true
  | .other _ => false

def written : Operand → List Char
  | .literal ps => '"' :: (ps.flatMap Part.written ++ ['"'])
  | .other t => t

/-- Whether the parts of a literal are sound, and what is no literal has none in it. -/
def isSound : Operand → Bool
  | .literal ps => ps.all Part.isSound
  | .other t => t.all (!isQuote ·)

def added : List Operand → List Char
  | [] => []
  | o :: os => [' ', '+', ' '] ++ (o.written ++ added os)

def joined : List Operand → List Char
  | [] => []
  | o :: os => o.written ++ added os

/-- The template of operands: what their literals hold, and a hole for each run of others. `run` tells
whether the operand before is no literal. -/
def template (run : Bool) : List Operand → List Char
  | [] => []
  | .literal ps :: os => ps.flatMap Part.template ++ template false os
  | .other _ :: os => (if !run then hole else []) ++ template true os

/-- The operands with another one between each two literals. `lit` tells whether the operand before is a
literal. -/
def spaced (lit : Bool) : List Operand → List Operand
  | [] => []
  | .literal ps :: os => (if lit then [.other []] else []) ++ .literal ps :: spaced true os
  | .other t :: os => .other t :: spaced false os

/-- How many literals follow a literal after the first slash. `past` tells whether there was a slash
before, `lit` whether the operand before is a literal. -/
def latePairs (past lit : Bool) : List Operand → Nat
  | [] => 0
  | .literal ps :: os =>
    (if past && lit then 1 else 0) +
      latePairs (past || (ps.flatMap Part.template).contains '/') true os
  | .other _ :: os => latePairs past false os

end Operand

theorem isPathChar_not_mem {c : Char} (h : isPathChar c = true) :
    c ∉ ['\\', '{', '$', '%', '"', ':', '?', '#'] := by
  intro hc
  simp only [List.mem_cons, List.not_mem_nil, or_false] at hc
  rcases hc with rfl | rfl | rfl | rfl | rfl | rfl | rfl | rfl <;> revert h <;> decide

theorem inside_value {name : List Char} (h : ∀ c ∈ name, c ∉ ['\\', '{', '}']) (rest : List Char) :
    inside '"' 1 (name ++ '}' :: rest) = inside '"' 0 rest := by
  induction name with
  | nil => simp [inside_cons, isQuote]
  | cons c name ih =>
    obtain ⟨hc, hname⟩ := List.forall_mem_cons.mp h
    simp only [List.mem_cons, List.not_mem_nil, or_false, not_or] at hc
    simp [inside_cons, isQuote, hc, ih hname]

theorem inside_part {p : Part} (h : p.isSound = true) (rest : List Char) :
    inside '"' 0 (p.written ++ rest) = (inside '"' 0 rest).map (p.template ++ ·) := by
  cases p with
  | path t =>
    refine inside_plain rfl (fun c hc => ?_) rest
    have := isPathChar_not_mem (List.all_eq_true.mp h c hc)
    simp_all
  | value name =>
    have hname : ∀ c ∈ name, c ∉ ['\\', '{', '}'] := by simpa [Part.isSound] using h
    simp [Part.written, Part.template, inside_cons, isQuote, inside_value hname]
  | verb v =>
    have hv : isVerb v = true := h
    simp [Part.written, Part.template, inside_cons, isQuote, hv]

theorem inside_parts {ps : List Part} (h : ps.all Part.isSound = true) (rest : List Char) :
    inside '"' 0 (ps.flatMap Part.written ++ rest) =
      (inside '"' 0 rest).map (ps.flatMap Part.template ++ ·) := by
  induction ps with
  | nil => simp
  | cons p ps ih =>
    rw [List.all_cons, Bool.and_eq_true] at h
    simp [inside_part h.1, ih h.2, Function.comp_def]

namespace Operand

/-- A literal puts a hole before it if a plus was seen. -/
theorem outside_literal {ps : List Part} (h : (literal ps).isSound = true) (plus seen : Bool) (rest : List Char) :
    outside plus seen ((literal ps).written ++ rest) = (outside false true rest).map fun t =>
      (if plus then hole else []) ++ (ps.flatMap Part.template ++ t) := by
  have hparts : ps.all Part.isSound = true := h
  simp [written, outside, inside_parts hparts, inside_quote, isQuote, Function.comp_def]

theorem outside_other {t : List Char} (h : (other t).isSound = true) (plus seen : Bool)
    (rest : List Char) :
    outside plus seen (t ++ rest) = outside (plus || t.contains '+') seen rest := by
  induction t generalizing plus with
  | nil => simp
  | cons c t ih =>
    rw [isSound, List.all_cons, Bool.and_eq_true] at h
    have hc : isQuote c = false := by simpa using h.1
    have hplus : (c :: t).contains '+' = (c == '+' || t.contains '+') := by
      rw [List.contains_cons, Bool.beq_comm]
    rw [hplus, ← Bool.or_assoc, ← ih h.2]
    simp [outside, hc]

theorem outside_plus (plus seen : Bool) (rest : List Char) :
    outside plus seen ([' ', '+', ' '] ++ rest) = outside true seen rest := by
  rw [outside_other (by decide)]
  simp

theorem outside_added (h : ∀ o ∈ os, o.isSound = true) (plus : Bool) :
    outside plus true (added os) =
      some ((if plus then hole else []) ++ template plus (spaced (!plus) os)) := by
  induction os generalizing plus with
  | nil => simp [added, outside, spaced, template]
  | cons o os ih =>
    obtain ⟨ho, hos⟩ := List.forall_mem_cons.mp h
    cases o with
    | literal ps =>
      rw [added, outside_plus, outside_literal ho, ih hos]
      cases plus <;> simp [spaced, template]
    | other t =>
      rw [added, outside_plus, written, outside_other ho, Bool.true_or, ih hos]
      cases plus <;> simp [spaced, template]

theorem outside_added_unseen (h : ∀ o ∈ os, o.isSound = true) (hlit : ∃ o ∈ os, o.isLiteral = true)
    (plus : Bool) : outside plus false (added os) = some (hole ++ template true (spaced false os)) := by
  induction os generalizing plus with
  | nil => simp at hlit
  | cons o os ih =>
    obtain ⟨ho, hos⟩ := List.forall_mem_cons.mp h
    cases o with
    | literal ps =>
      rw [added, outside_plus, outside_literal ho, outside_added hos]
      simp [spaced, template]
    | other t =>
      have hlit : ∃ o ∈ os, o.isLiteral = true := by simpa [isLiteral] using hlit
      rw [added, outside_plus, written, outside_other ho, Bool.true_or, ih hos hlit]
      simp [spaced, template]

theorem outside_joined (h : ∀ o ∈ es, o.isSound = true) (hlit : ∃ o ∈ es, o.isLiteral = true) :
    outside false false (joined es) = some (template false (spaced false es)) := by
  cases es with
  | nil => simp at hlit
  | cons o os =>
    obtain ⟨ho, hos⟩ := List.forall_mem_cons.mp h
    cases o with
    | literal ps =>
      rw [joined, outside_literal ho, outside_added hos]
      simp [spaced, template]
    | other t =>
      have hlit : ∃ o ∈ os, o.isLiteral = true := by simpa [isLiteral] using hlit
      rw [joined, written, outside_other ho, outside_added_unseen hos hlit]
      simp [spaced, template]

end Operand

def fromSlash (past : Bool) (t : List Char) : List Char := if past then t else t.dropWhile (· != '/')

@[simp] theorem fromSlash_nil (past : Bool) : fromSlash past [] = [] := by cases past <;> rfl

theorem fromSlash_append (past : Bool) (t u : List Char) :
    fromSlash past (t ++ u) = fromSlash past t ++ fromSlash (past || t.contains '/') u := by
  cases past with
  | true => simp [fromSlash]
  | false =>
    by_cases h : '/' ∈ t
    · have hne : (t.dropWhile (· != '/')).isEmpty = false := by simpa using h
      simp [fromSlash, List.dropWhile_append, hne, h]
    · have hnil : t.dropWhile (· != '/') = [] := by
        rw [List.dropWhile_eq_nil_iff]
        intro c hc
        have hslash : c ≠ '/' := fun heq => h (heq ▸ hc)
        simpa using hslash
      simp [fromSlash, List.dropWhile_append, hnil, h]

theorem fromSlash_hole_append (past b : Bool) (t : List Char) :
    fromSlash past ((if b then hole else []) ++ t) =
      (if past && b then hole else []) ++ fromSlash past t := by
  cases past <;> cases b <;> simp [fromSlash, hole]

namespace Operand

theorem template_spaced_literal (run lit : Bool) (ps : List Part) (os : List Operand) :
    template run (spaced lit (literal ps :: os)) =
      (if lit && !run then hole else []) ++
        (ps.flatMap Part.template ++ template false (spaced true os)) := by
  cases lit <;> simp [spaced, template]

theorem fromSlash_spaced {past lit : Bool} (h : latePairs past lit os = 0) (run : Bool) :
    fromSlash past (template run (spaced lit os)) = fromSlash past (template run os) := by
  induction os generalizing past lit run with
  | nil => rfl
  | cons o os ih =>
    cases o with
    | literal ps =>
      rw [latePairs, Nat.add_eq_zero_iff] at h
      have hpair : (past && (lit && !run)) = false := by
        have : (past && lit) = false := by simpa using h.1
        rw [← Bool.and_assoc, this, Bool.false_and]
      rw [template_spaced_literal, template, fromSlash_hole_append, hpair, fromSlash_append,
        fromSlash_append, ih h.2]
      rfl
    | other t =>
      rw [latePairs] at h
      rw [spaced, template, template, fromSlash_hole_append, fromSlash_hole_append, ih h]

/-- Each pair of literals after the first slash brings one more hole. -/
theorem count_fromSlash_spaced (os : List Operand) {lit run : Bool} (hrun : lit = true → run = false)
    (past : Bool) :
    (fromSlash past (template run (spaced lit os))).count '{' =
      (fromSlash past (template run os)).count '{' + latePairs past lit os := by
  induction os generalizing past lit run with
  | nil => simp [spaced, latePairs]
  | cons o os ih =>
    cases o with
    | literal ps =>
      have hpair : (if past && (lit && !run) then hole else []).count '{' =
          if past && lit then 1 else 0 := by
        cases past <;> cases lit <;> cases run <;> simp_all [hole]
      rw [template_spaced_literal, template, latePairs, fromSlash_hole_append, fromSlash_append,
        fromSlash_append, List.count_append, List.count_append, List.count_append, hpair,
        ih fun _ => rfl]
      omega
    | other t =>
      rw [spaced, template, template, latePairs, fromSlash_hole_append, fromSlash_hole_append,
        List.count_append, List.count_append, ih (by simp)]
      omega

theorem not_mem_template (h : ∀ o ∈ os, o.isSound = true) (run : Bool) :
    ∀ c ∈ template run os, c ∉ [':', '?', '#'] := by
  have hhole (b : Bool) : ∀ c ∈ (if b then hole else []), c ∉ [':', '?', '#'] := by
    cases b <;> simp [hole]
  have hpart {p : Part} (hp : p.isSound = true) : ∀ c ∈ p.template, c ∉ [':', '?', '#'] := by
    cases p with
    | path t =>
      intro c hc
      have := isPathChar_not_mem (List.all_eq_true.mp hp c hc)
      simp_all
    | value name => exact hhole true
    | verb v => exact hhole true
  induction os generalizing run with
  | nil => simp [template]
  | cons o os ih =>
    obtain ⟨ho, hos⟩ := List.forall_mem_cons.mp h
    cases o with
    | literal ps =>
      refine List.forall_mem_append.mpr ⟨fun c hc => ?_, ih hos false⟩
      obtain ⟨p, hp, hc⟩ := List.mem_flatMap.mp hc
      exact hpart (List.all_eq_true.mp ho p hp) c hc
    | other t => exact List.forall_mem_append.mpr ⟨hhole _, ih hos true⟩

theorem sound_spaced (h : ∀ o ∈ os, o.isSound = true) (lit : Bool) :
    ∀ o ∈ spaced lit os, o.isSound = true := by
  induction os generalizing lit with
  | nil => simp [spaced]
  | cons o os ih =>
    obtain ⟨ho, hos⟩ := List.forall_mem_cons.mp h
    cases o with
    | literal ps =>
      refine List.forall_mem_append.mpr ⟨?_, List.forall_mem_cons.mpr ⟨ho, ih hos true⟩⟩
      cases lit <;> simp [isSound]
    | other t => exact List.forall_mem_cons.mpr ⟨ho, ih hos false⟩

end Operand

/-- Without scheme, query and fragment a path is what stands from the first slash on. -/
theorem urlPath?_eq_fromSlash {t : List Char} (h : ∀ c ∈ t, c ∉ [':', '?', '#']) :
    urlPath? t =
      if fromSlash false t = [] then none else some (dropTrailingSlashes (fromSlash false t)) := by
  have hcut : cut? [':', '/', '/'] t = none :=
    cut?_eq_none (c := ':') (by simp) fun hmem => h ':' hmem (by simp)
  have htake : (fromSlash false t).takeWhile (fun c => c != '?' && c != '#') = fromSlash false t := by
    rw [List.takeWhile_eq_self_iff]
    intro c hc
    have := h c ((List.dropWhile_suffix _).mem hc)
    simp_all
  have hslash : t.contains '/' = true ↔ fromSlash false t ≠ [] := by
    simp [fromSlash]
  simp only [urlPath?, hcut]
  by_cases hnil : fromSlash false t = []
  · rw [if_pos hnil, if_neg fun hmem => hslash.mp hmem hnil]
  · rw [if_neg hnil, if_pos (hslash.mpr hnil)]
    exact congrArg (fun p => some (dropTrailingSlashes p)) htake

theorem count_dropTrailingSlashes (t : List Char) :
    (dropTrailingSlashes t).count '{' = t.count '{' := by
  cases t with
  | nil => rfl
  | cons c t =>
    have hslashes : (t.rtakeWhile (· == '/')).count '{' = 0 := by
      rw [List.count_eq_zero]
      intro hmem
      simpa using List.mem_rtakeWhile_imp hmem
    have hall := congrArg (List.count '{') (List.rdropWhile_append_rtakeWhile (p := (· == '/')) (l := t))
    rw [List.count_append, hslashes, Nat.add_zero] at hall
    rw [dropTrailingSlashes, List.count_cons, List.count_cons, ← hall]
    rfl

theorem count_fromSlash_of_urlPath? {t u : List Char} (ht : ∀ c ∈ t, c ∉ [':', '?', '#'])
    (hu : ∀ c ∈ u, c ∉ [':', '?', '#']) (h : urlPath? t = urlPath? u) :
    (fromSlash false t).count '{' = (fromSlash false u).count '{' := by
  rw [urlPath?_eq_fromSlash ht, urlPath?_eq_fromSlash hu] at h
  by_cases hnil : fromSlash false t = []
  · by_cases hnil' : fromSlash false u = []
    · rw [hnil, hnil']
    · simp [hnil, hnil'] at h
  · by_cases hnil' : fromSlash false u = []
    · simp [hnil, hnil'] at h
    · rw [if_neg hnil, if_neg hnil', Option.some.injEq] at h
      rw [← count_dropTrailingSlashes, h, count_dropTrailingSlashes]

namespace Operand

theorem pathTemplate?_joined {e : List Char} (he : unwrapped (trim e) = joined es)
    (h : ∀ o ∈ es, o.isSound = true) (hlit : ∃ o ∈ es, o.isLiteral = true) :
    pathTemplate? e = urlPath? (template false (spaced false es)) := by
  rw [pathTemplate?, he, outside_joined h hlit, Option.bind_some]

theorem urlPath?_spaced_iff (h : ∀ o ∈ es, o.isSound = true) :
    urlPath? (template false (spaced false es)) = urlPath? (template false es) ↔
      latePairs false false es = 0 := by
  have hplain := not_mem_template h false
  have hplain' := not_mem_template (sound_spaced h false) false
  constructor
  · intro heq
    have hcount := count_fromSlash_of_urlPath? hplain' hplain heq
    rw [count_fromSlash_spaced es (by simp) false] at hcount
    omega
  · intro hlate
    rw [urlPath?_eq_fromSlash hplain', urlPath?_eq_fromSlash hplain, fromSlash_spaced hlate]

theorem split_path_iff {a b : List Char} (h : ∀ c ∈ a ++ b, isPathChar c = true) :
    pathTemplate? ('"' :: (a ++ ['"', ' ', '+', ' ', '"'] ++ b ++ ['"'])) =
      pathTemplate? ('"' :: (a ++ b ++ ['"'])) ↔ '/' ∉ a := by
  have hread (t : List Char) : unwrapped (trim ('"' :: (t ++ ['"']))) = '"' :: (t ++ ['"']) :=
    unwrapped_trim rfl (last_quote ('"' :: t) rfl (by simp))
  obtain ⟨ha, hb⟩ := List.forall_mem_append.mp h
  have hpair : ∀ o ∈ [literal [.path a], literal [.path b]], o.isSound = true := by
    simpa [isSound, Part.isSound] using ⟨ha, hb⟩
  have hsingle : ∀ o ∈ [literal [.path (a ++ b)]], o.isSound = true := by
    simpa [isSound, Part.isSound] using ⟨ha, hb⟩
  have hsplit : pathTemplate? ('"' :: (a ++ ['"', ' ', '+', ' ', '"'] ++ b ++ ['"'])) =
      urlPath? (template false (spaced false [literal [.path a], literal [.path b]])) := by
    refine pathTemplate?_joined ((hread _).trans ?_) hpair (by simp [isLiteral])
    simp [joined, added, written, Part.written]
  have hwhole : pathTemplate? ('"' :: (a ++ b ++ ['"'])) =
      urlPath? (template false (spaced false [literal [.path (a ++ b)]])) := by
    refine pathTemplate?_joined ((hread _).trans ?_) hsingle (by simp [isLiteral])
    simp [joined, added, written, Part.written]
  have hsame : template false (spaced false [literal [.path (a ++ b)]]) =
      template false [literal [.path a], literal [.path b]] := by
    simp [spaced, template, Part.template]
  rw [hsplit, hwhole, hsame, urlPath?_spaced_iff hpair]
  simp [latePairs, Part.template]

/-- A path that is split into two literals has the template of the whole path just if it is split before
its first slash. In general, literals side by side are read as if another operand stood between them, and
an expression has the template of its operands just if no literal follows another after the first slash. -/
theorem literals_joined_iff {a b e : List Char} {es : List Operand}
    (hpath : ∀ c ∈ a ++ b, isPathChar c = true) (he : unwrapped (trim e) = joined es)
    (hsound : ∀ o ∈ es, o.isSound = true) (hliteral : ∃ o ∈ es, o.isLiteral = true) :
    (pathTemplate? ('"' :: (a ++ ['"', ' ', '+', ' ', '"'] ++ b ++ ['"'])) =
        pathTemplate? ('"' :: (a ++ b ++ ['"'])) ↔ '/' ∉ a) ∧
      pathTemplate? e = urlPath? (template false (spaced false es)) ∧
      (pathTemplate? e = urlPath? (template false es) ↔ latePairs false false es = 0) := by
  refine ⟨split_path_iff hpath, pathTemplate?_joined he hsound hliteral, ?_⟩
  rw [pathTemplate?_joined he hsound hliteral]
  exact urlPath?_spaced_iff hsound

/-- Two literals that make up `/orders/open`, and two among the operands of an expression. -/
theorem open_orders_split :
    pathTemplate? "\"/orders\" + \"/open\"".toList ≠ pathTemplate? "\"/orders/open\"".toList ∧
    pathTemplate? "base + \"/orders/\" + \"open/\" + id".toList =
      some "/orders/\x7b\x7dopen/\x7b\x7d".toList := by
  have hpath : ∀ c ∈ "/orders".toList ++ "/open".toList, isPathChar c = true :=
    List.all_eq_true.mp (by decide)
  have he : unwrapped (trim "base + \"/orders/\" + \"open/\" + id".toList) =
      joined [.other "base".toList, .literal [.path "/orders/".toList], .literal [.path "open/".toList],
        .other "id".toList] := by
    decide +kernel
  obtain ⟨hpair, hjoined, -⟩ := literals_joined_iff hpath he (by decide) (by decide)
  constructor
  · exact fun h => hpair.mp h (by decide)
  · rw [hjoined]
    decide +kernel

end Operand

end Concord.Literal
