import Mathlib.Data.List.SplitBy
import Recognition.Proofs.Sgml.Escaping

namespace Recognition.Sgml

section Clusters

/-- Whether a character goes with the one before it. -/
def joins (_ c : Char) : Bool := isCombining c

theorem toNat_of_isCombining {c : Char} (h : isCombining c = true) : 0x80 ≤ c.toNat := by
  obtain ⟨r, hr, hle, -⟩ := Scalar.Ranges.contains_iff.1 h
  have hfirst : ∀ r ∈ combiningMarks, 0x80 ≤ r.1 := by decide
  exact Nat.le_trans (hfirst r hr) hle

theorem consCluster_cases (c : Char) {cs : List (List Char)} (hne : [] ∉ cs) :
    (consCluster c cs = [c] :: cs ∧ ∀ d ∈ cs.head?, ∃ m ms, d = m :: ms ∧ isCombining m = false) ∨
      ∃ m ms rest, cs = (m :: ms) :: rest ∧ isCombining m = true ∧
        consCluster c cs = (c :: m :: ms) :: rest := by
  match cs with
  | [] => exact .inl ⟨rfl, by simp⟩
  | [] :: rest => simp at hne
  | (m :: ms) :: rest =>
    by_cases hm : isCombining m = true
    · exact .inr ⟨m, ms, rest, rfl, hm, if_pos hm⟩
    · exact .inl ⟨if_neg hm, by simpa using hm⟩

/-- In each cluster all but the first are marks, and none begins with a mark but the first. -/
structure AreClusters (cs : List (List Char)) : Prop where
  nil_notMem : [] ∉ cs
  within : ∀ c ∈ cs, c.IsChain fun x y => joins x y = true
  between : cs.IsChain fun a b => ∃ ha hb, joins (a.getLast ha) (b.head hb) = false

theorem AreClusters.consCluster {cs : List (List Char)} (h : AreClusters cs) (c : Char) :
    AreClusters (consCluster c cs) := by
  rcases consCluster_cases c h.nil_notMem with ⟨heq, hhead⟩ | ⟨m, ms, rest, rfl, hm, heq⟩
  · rw [heq]
    refine ⟨by simp [h.nil_notMem], ?_, List.isChain_cons.2 ⟨?_, h.between⟩⟩
    · rw [List.forall_mem_cons]
      exact ⟨.singleton c, h.within⟩
    · intro d hd
      obtain ⟨m, ms, rfl, hm⟩ := hhead d hd
      exact ⟨List.cons_ne_nil _ _, List.cons_ne_nil _ _, hm⟩
  · have hwithin := List.forall_mem_cons.1 h.within
    have hbetween := List.isChain_cons.1 h.between
    rw [heq]
    refine ⟨?_, ?_, List.isChain_cons.2 ⟨?_, hbetween.2⟩⟩
    · simpa using h.nil_notMem
    · rw [List.forall_mem_cons]
      exact ⟨.cons_cons hm hwithin.1, hwithin.2⟩
    · intro d hd
      obtain ⟨hlast, hd, hfalse⟩ := hbetween.1 d hd
      exact ⟨List.cons_ne_nil _ _, hd, hfalse⟩

theorem areClusters_clusters (text : List Char) : AreClusters (clusters text) := by
  induction text with
  | nil => exact ⟨List.not_mem_nil, by simp [clusters], .nil⟩
  | cons c text ih => exact ih.consCluster c

/-- A text is cut before each character that is no mark. -/
theorem clusters_eq_splitBy (text : List Char) : clusters text = text.splitBy joins := by
  have h := areClusters_clusters text
  exact (List.splitBy_eq_iff.2
    ⟨(flatten_clusters text).symm, h.nil_notMem, h.within, h.between⟩).symm

theorem isCombining_of_isChain {c : Char} {marks : List Char}
    (h : (c :: marks).IsChain fun x y => joins x y = true) : ∀ m ∈ marks, isCombining m = true := by
  induction marks generalizing c with
  | nil => simp
  | cons m marks ih =>
    rw [List.isChain_cons_cons] at h
    exact List.forall_mem_cons.2 ⟨h.1, ih h.2⟩

theorem isCombining_of_mem_splitBy {text : List Char} {c : Char} {marks : List Char}
    (h : c :: marks ∈ text.splitBy joins) : ∀ m ∈ marks, isCombining m = true :=
  isCombining_of_isChain (List.isChain_of_mem_splitBy h)

end Clusters

section Scalars

variable {what : EscapeSet} {c : Char}

def referenceTo (c : Char) : List Char :=
  match nameOf? [c] with
  | some name => named name
  | none => '&' :: '#' :: 'x' :: hexDigits c.toNat ++ [';']

/-- Whether nothing asks for a reference: the character is ASCII, not `&` and not in `what`. -/
def isPlain (what : EscapeSet) (c : Char) : Bool :=
  c.toNat < 0x80 && c ≠ '&' && !what.covers c

def spellScalar (what : EscapeSet) (c : Char) : List Char :=
  if isPlain what c then [c] else referenceTo c

/-- A character with marks by the name that they have together, or else scalar by scalar. -/
def spellCluster (what : EscapeSet) (cluster : List Char) : List Char :=
  match if 1 < cluster.length then nameOf? cluster else none with
  | some name => named name
  | none => cluster.flatMap (spellScalar what)

theorem encodeScalar_of_isSome (h : (nameOf? [c]).isSome = true) :
    encodeScalar c = referenceTo c := by
  obtain ⟨name, hname⟩ := Option.isSome_iff_exists.1 h
  rw [encodeScalar, referenceTo, hname]

theorem encodeScalar_of_not_isPlain (h : isPlain what c = false) :
    encodeScalar c = referenceTo c := by
  by_cases hascii : c.toNat < 0x80
  · apply encodeScalar_of_isSome
    cases hname : nameOf? [c] with
    | some name => rfl
    | none =>
      have hamp := ne_amp_of_nameOf? hname
      have hcovers : what.covers c = false := uncovered_of_nameOf? hname
      simp [isPlain, hascii, hamp, hcovers] at h
  · rw [encodeScalar, referenceTo]
    cases nameOf? [c] with
    | some name => rfl
    | none => exact if_neg hascii

theorem encodeScalar_of_isPlain (h : isPlain what c = true) :
    (nameOf? [c] = none ∧ encodeScalar c = [c]) ∨
      ((nameOf? [c]).isSome = true ∧ 1 < (encodeScalar c).length) := by
  have hascii : c.toNat < 0x80 := by
    simp only [isPlain, Bool.and_eq_true, decide_eq_true_eq] at h
    exact h.1.1
  rw [encodeScalar]
  cases nameOf? [c] with
  | some name => exact .inr ⟨rfl, by simp [named]⟩
  | none => exact .inl ⟨rfl, if_pos hascii⟩

theorem toNat_of_delimiter {d : Delimiter} (h : Delimiter.ofChar? c = some d) : c.toNat < 0x80 := by
  unfold Delimiter.ofChar? at h
  split at h
  case h_17 => cases h
  all_goals decide

theorem all_ascii_delimiters :
    entities.all (fun e => e.scalars.length ≠ 1 ||
      e.scalars.all fun c => 0x80 ≤ c.toNat || (Delimiter.ofChar? c).isSome) = true := by
  decide +kernel

theorem isSome_nameOf?_iff (hascii : c.toNat < 0x80) :
    (nameOf? [c]).isSome = true ↔ (Delimiter.ofChar? c).isSome = true := by
  constructor
  · intro h
    obtain ⟨name, hname⟩ := Option.isSome_iff_exists.1 h
    obtain ⟨e, he, -⟩ := Option.map_eq_some_iff.1 hname
    have hscalars : e.scalars = [c] := by simpa using List.find?_some he
    have hall := List.all_eq_true.1 all_ascii_delimiters e (List.mem_of_find?_eq_some he)
    simpa [hscalars, Nat.not_le.2 hascii] using hall
  · intro h
    obtain ⟨d, hd⟩ := Option.isSome_iff_exists.1 h
    exact isSome_nameOf?_of_delimiter hd

/-- A delimiter that nothing asks for. -/
def IsUnasked (what : EscapeSet) (c : Char) : Prop :=
  (Delimiter.ofChar? c).isSome = true ∧ c ≠ '&' ∧ what.covers c = false

theorem isUnasked_iff :
    IsUnasked what c ↔ isPlain what c = true ∧ (nameOf? [c]).isSome = true := by
  constructor
  · rintro ⟨hdelimiter, hamp, hcovers⟩
    obtain ⟨d, hd⟩ := Option.isSome_iff_exists.1 hdelimiter
    have hascii := toNat_of_delimiter hd
    exact ⟨by simp [isPlain, hascii, hamp, hcovers], isSome_nameOf?_of_delimiter hd⟩
  · rintro ⟨hplain, hnamed⟩
    simp only [isPlain, Bool.and_eq_true, decide_eq_true_eq, Bool.not_eq_true'] at hplain
    exact ⟨(isSome_nameOf?_iff hplain.1.1).1 hnamed, hplain.1.2, hplain.2⟩

theorem encodeScalar_cases_asked (what : EscapeSet) (c : Char) :
    (¬ IsUnasked what c ∧ encodeScalar c = spellScalar what c) ∨
      (IsUnasked what c ∧ (spellScalar what c).length < (encodeScalar c).length) := by
  rw [isUnasked_iff, spellScalar]
  cases hplain : isPlain what c with
  | false =>
    rw [encodeScalar_of_not_isPlain hplain]
    exact .inl ⟨by simp, rfl⟩
  | true =>
    rcases encodeScalar_of_isPlain hplain with ⟨hname, heq⟩ | ⟨hname, hlt⟩
    · exact .inl ⟨by simp [hname], heq⟩
    · exact .inr ⟨⟨rfl, hname⟩, hlt⟩

end Scalars

section Lengths

variable {α β : Type} {f g : α → List β} {xs : List α}

theorem flatMap_eq_or_length_lt (h : ∀ x ∈ xs, f x = g x ∨ (g x).length < (f x).length) :
    (∀ x ∈ xs, f x = g x) ∨ (xs.flatMap g).length < (xs.flatMap f).length := by
  induction xs with
  | nil => exact .inl (by simp)
  | cons x xs ih =>
    obtain ⟨hx, hxs⟩ := List.forall_mem_cons.1 h
    simp only [List.flatMap_cons, List.length_append]
    rcases hx, ih hxs with ⟨heq | hlt, heqs | hlts⟩
    · exact .inl (List.forall_mem_cons.2 ⟨heq, heqs⟩)
    · exact .inr (heq ▸ Nat.add_lt_add_left hlts _)
    · have hsame : xs.flatMap f = xs.flatMap g := List.flatMap_congr heqs
      exact .inr (hsame ▸ Nat.add_lt_add_right hlt _)
    · exact .inr (Nat.add_lt_add hlt hlts)

theorem flatMap_eq_flatMap_iff (h : ∀ x ∈ xs, f x = g x ∨ (g x).length < (f x).length) :
    xs.flatMap f = xs.flatMap g ↔ ∀ x ∈ xs, f x = g x := by
  refine ⟨fun heq => ?_, List.flatMap_congr⟩
  refine (flatMap_eq_or_length_lt h).resolve_right fun hlt => ?_
  rw [heq] at hlt
  exact Nat.lt_irrefl _ hlt

end Lengths

section Encoding

variable {what : EscapeSet} {c : Char} {marks : List Char}

/-- A delimiter that nothing asks for, before marks that it has no name with. -/
def IsOverspelled (what : EscapeSet) (c : Char) (marks : List Char) : Prop :=
  marks ≠ [] ∧ nameOf? (c :: marks) = none ∧ IsUnasked what c

theorem encodeScalar_of_isCombining {m : Char} (h : isCombining m = true) :
    encodeScalar m = spellScalar what m := by
  have hplain : isPlain what m = false := by
    have hle := toNat_of_isCombining h
    simp [isPlain, Nat.not_lt.2 hle]
  rw [encodeScalar_of_not_isPlain hplain, spellScalar, hplain]
  rfl

theorem encodeCluster_singleton (hfull : what.full = false) (c : Char) :
    encodeCluster what [c] = spellCluster what [c] := by
  have hverbatim : isVerbatim what c = isPlain what c := by simp [isVerbatim, isPlain, hfull]
  have hspell : spellCluster what [c] = spellScalar what c := by simp [spellCluster]
  rw [encodeCluster, hspell, spellScalar, hverbatim]
  cases hplain : isPlain what c with
  | true => rfl
  | false => simp [encodeScalar_of_not_isPlain hplain]

theorem encodeCluster_of_ne_nil (hmarks : marks ≠ []) : encodeCluster what (c :: marks) =
    match nameOf? (c :: marks) with
    | some name => named name
    | none => (c :: marks).flatMap encodeScalar := by
  obtain ⟨m, ms, rfl⟩ := List.exists_cons_of_ne_nil hmarks
  rfl

theorem spellCluster_of_ne_nil (hmarks : marks ≠ []) : spellCluster what (c :: marks) =
    match nameOf? (c :: marks) with
    | some name => named name
    | none => (c :: marks).flatMap (spellScalar what) := by
  obtain ⟨m, ms, rfl⟩ := List.exists_cons_of_ne_nil hmarks
  simp [spellCluster]

/-- A cluster is spelled as it was asked for, or else it is overspelled, and longer for it. -/
theorem encodeCluster_cases_asked (hfull : what.full = false)
    (hmarks : ∀ m ∈ marks, isCombining m = true) :
    (¬ IsOverspelled what c marks ∧
      encodeCluster what (c :: marks) = spellCluster what (c :: marks)) ∨
      (IsOverspelled what c marks ∧
        (spellCluster what (c :: marks)).length < (encodeCluster what (c :: marks)).length) := by
  by_cases hne : marks = []
  · subst hne
    exact .inl ⟨fun hover => hover.1 rfl, encodeCluster_singleton hfull c⟩
  rw [encodeCluster_of_ne_nil hne, spellCluster_of_ne_nil hne]
  cases hname : nameOf? (c :: marks) with
  | some name =>
    refine .inl ⟨?_, rfl⟩
    rintro ⟨-, hnone, -⟩
    rw [hname] at hnone
    cases hnone
  | none =>
    have hsame : marks.flatMap encodeScalar = marks.flatMap (spellScalar what) :=
      List.flatMap_congr fun m hm => encodeScalar_of_isCombining (hmarks m hm)
    simp only [List.flatMap_cons, hsame, List.length_append]
    rcases encodeScalar_cases_asked what c with ⟨hnot, heq⟩ | ⟨hunasked, hlt⟩
    · exact .inl ⟨fun hover => hnot hover.2.2, by rw [heq]⟩
    · exact .inr ⟨⟨hne, hname, hunasked⟩, Nat.add_lt_add_right hlt _⟩

theorem encodeCluster_eq_iff (hfull : what.full = false)
    (hmarks : ∀ m ∈ marks, isCombining m = true) :
    encodeCluster what (c :: marks) = spellCluster what (c :: marks) ↔
      ¬ IsOverspelled what c marks := by
  rcases encodeCluster_cases_asked hfull hmarks with ⟨hnot, heq⟩ | ⟨hover, hlt⟩
  · exact iff_of_true heq hnot
  · refine iff_of_false (fun heq => ?_) (fun hnot => hnot hover)
    rw [heq] at hlt
    exact Nat.lt_irrefl _ hlt

/-- Without `full`, a text is encoded as it was asked for if and only if each delimiter that nothing
asks for and that has combining marks after it has a name together with these. -/
theorem encode_eq_spell_iff (hfull : what.full = false) (text : List Char) :
    encode what text = (text.splitBy joins).flatMap (spellCluster what) ↔
      ∀ c marks, c :: marks ∈ text.splitBy joins → marks ≠ [] →
        (Delimiter.ofChar? c).isSome = true → c ≠ '&' → what.covers c = false →
        (nameOf? (c :: marks)).isSome = true := by
  have hlonger : ∀ cluster ∈ text.splitBy joins,
      encodeCluster what cluster = spellCluster what cluster ∨
        (spellCluster what cluster).length < (encodeCluster what cluster).length := by
    intro cluster hcluster
    obtain ⟨c, marks, rfl⟩ := List.exists_cons_of_ne_nil (List.ne_nil_of_mem_splitBy hcluster)
    exact (encodeCluster_cases_asked hfull (isCombining_of_mem_splitBy hcluster)).imp
      And.right And.right
  rw [encode, clusters_eq_splitBy, flatMap_eq_flatMap_iff hlonger]
  constructor
  · intro heq c marks hcluster hne hdelimiter hamp hcovers
    have hnot :=
      (encodeCluster_eq_iff hfull (isCombining_of_mem_splitBy hcluster)).1 (heq _ hcluster)
    by_contra hname
    exact hnot ⟨hne, by simpa using hname, hdelimiter, hamp, hcovers⟩
  · intro hnamed cluster hcluster
    obtain ⟨c, marks, rfl⟩ := List.exists_cons_of_ne_nil (List.ne_nil_of_mem_splitBy hcluster)
    rw [encodeCluster_eq_iff hfull (isCombining_of_mem_splitBy hcluster)]
    rintro ⟨hne, hnone, hdelimiter, hamp, hcovers⟩
    have hsome := hnamed c marks hcluster hne hdelimiter hamp hcovers
    rw [hnone] at hsome
    cases hsome

/-- A delimiter that was asked for before a mark, one that was not before a letter, and a letter
that has a name together with its mark. -/
theorem encode_eq_spell_of_mark :
    (EscapeSet.of [.quot]).full = false ∧
      encode (.of [.quot]) ['<', 'a', '"', '\u0301', 's', '\u0304', '&'] =
        (['<', 'a', '"', '\u0301', 's', '\u0304', '&'].splitBy joins).flatMap
          (spellCluster (.of [.quot])) ∧
      (['<', 'a', '"', '\u0301', 's', '\u0304', '&'].splitBy joins).flatMap
          (spellCluster (.of [.quot])) = "<a&quot;&#x301;&smacr;&amp;".toList := by
  have hclusters : ['<', 'a', '"', '\u0301', 's', '\u0304', '&'].splitBy joins =
      [['<'], ['a'], ['"', '\u0301'], ['s', '\u0304'], ['&']] := by
    decide
  refine ⟨rfl, (encode_eq_spell_iff rfl _).2 ?_, by decide +kernel⟩
  rw [hclusters]
  intro c marks hcluster hne _ hamp hcovers
  simp only [List.mem_cons, List.cons.injEq, List.not_mem_nil, or_false] at hcluster
  rcases hcluster with ⟨rfl, rfl⟩ | ⟨rfl, rfl⟩ | ⟨rfl, rfl⟩ | ⟨rfl, rfl⟩ | ⟨rfl, rfl⟩
  · exact absurd rfl hne
  · exact absurd rfl hne
  · exact absurd hcovers (by decide)
  · decide +kernel
  · exact absurd rfl hne

/-- A delimiter that nothing asks for is written as a reference before a combining mark, and as
itself without one. -/
theorem encode_overspells_before_mark :
    encode .none ['<', '\u0301'] = "&lt;&#x301;".toList ∧
      (['<', '\u0301'].splitBy joins).flatMap (spellCluster .none) = "<&#x301;".toList ∧
      encode .none ['<'] = ['<'] := by
  decide +kernel

end Encoding

end Recognition.Sgml
