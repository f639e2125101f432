import Recognition.Sgml.Delimiter
import Recognition.Sgml.Reference
import Recognition.Span

namespace Recognition.Sgml

inductive Segment where
  /-- A run that stands for itself. It begins with its only `&`, if it has one. -/
  | text (chars : List Char)
  | reference (span : Span) (glyph : Glyph)
deriving DecidableEq, Repr

namespace Segment

def scalars : Segment → List Char
  | text chars => chars
  | reference _ glyph => glyph.scalars

def size : Segment → Nat
  | text chars => Utf8.size chars
  | reference _ glyph => glyph.width

end Segment

/-- The reference that is read at the front of a text, unless it stands for a delimiter of `keep`.
-/
def unkept? (keep : EscapeSet) : List Char → Option (Glyph × List Char)
  | '&' :: cs => (reference? cs).filter fun r => !keep.covers r.1.base
  | _ => none

theorem length_unkept?_lt {keep : EscapeSet} {cs rest : List Char} {g : Glyph}
    (h : unkept? keep cs = some (g, rest)) : rest.length < cs.length := by
  unfold unkept? at h
  split at h
  · have := length_rest_lt (Option.filter_eq_some_iff.1 h).1
    rw [List.length_cons]
    omega
  · simp at h

def segmentsFrom (keep : EscapeSet) (pos : Nat) (cs : List Char) : List Segment :=
  match _hr : unkept? keep cs with
  | some (g, rest) =>
    .reference ⟨pos, pos + g.width⟩ g :: segmentsFrom keep (pos + g.width) rest
  | none =>
    match cs with
    | [] => []
    | c :: cs =>
      let run := c :: cs.takeWhile (· ≠ '&')
      .text run :: segmentsFrom keep (pos + Utf8.size run) (cs.dropWhile (· ≠ '&'))
termination_by cs.length
decreasing_by
  · exact length_unkept?_lt _hr
  · have := (List.dropWhile_suffix (· ≠ '&') (l := cs)).length_le
    simp only [List.length_cons]
    omega

/-- The pieces of a text. References to delimiters of `keep` count as text. -/
def segments (keep : EscapeSet) (text : List Char) : List Segment := segmentsFrom keep 0 text

theorem size_of_reference? {cs rest : List Char} {g : Glyph} (h : reference? cs = some (g, rest)) :
    Utf8.size ('&' :: cs) = g.width + Utf8.size rest := by
  obtain ⟨body, rfl, hw⟩ := reference?_eq_some h
  simp [hw, show Char.utf8Size '&' = 1 from rfl, show Char.utf8Size ';' = 1 from rfl]
  omega

end Recognition.Sgml
