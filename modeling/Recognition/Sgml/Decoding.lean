import Recognition.OffsetMap
import Recognition.Sgml.Segment

namespace Recognition.Sgml

/-- The text with every known reference replaced, but for those to delimiters of `keep`. -/
def decode (keep : EscapeSet) (text : List Char) : List Char :=
  (segments keep text).flatMap Segment.scalars

/-- A decoded text, with a breakpoint before and after what was a reference. -/
structure Decoded where
  text : List Char
  map : OffsetMap
deriving DecidableEq, Repr

namespace Decoded

def empty : Decoded := ⟨[], []⟩

/-- Adds pieces. Breakpoints are moved by `offset`; the first that cannot be stops the work, and
what was added until then remains. -/
def appendSegments (offset : Breakpoint) (d : Decoded) : List Segment → Decoded × Option Fault
  | [] => (d, none)
  | .text chars :: rest => appendSegments offset ⟨d.text ++ chars, d.map⟩ rest
  | .reference span glyph :: rest =>
    let before := Utf8.size d.text
    match offset.add? ⟨span.start, before⟩ with
    | none => (d, some (.offsetOverflow span.start before))
    | some b =>
      let text := d.text ++ glyph.scalars
      let after := Utf8.size text
      match offset.add? ⟨span.stop, after⟩ with
      | none => (⟨text, d.map ++ [b]⟩, some (.offsetOverflow span.stop after))
      | some b' => appendSegments offset ⟨text, d.map ++ [b, b']⟩ rest

def append (d : Decoded) (keep : EscapeSet) (offset : Breakpoint) (text : List Char) :
    Decoded × Option Fault :=
  d.appendSegments offset (segments keep text)

end Decoded

end Recognition.Sgml
