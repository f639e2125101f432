import Recognition.Grammar.Match
import Recognition.Payment.CreditorReference
import Recognition.Payment.Iban
import Recognition.Payment.SiReference

namespace Recognition

class MapOffsets (α : Type) where
  /-- All but the offsets stays as it is. -/
  mapOffsets : (Nat → Nat) → α → α

export MapOffsets (mapOffsets)

def Span.mapOffsets (φ : Nat → Nat) (s : Span) : Span := ⟨φ s.start, φ s.stop⟩

instance : MapOffsets Span := ⟨Span.mapOffsets⟩

/-- The tree keeps its shape and its hits. -/
def Match.mapOffsets (φ : Nat → Nat) : Match → Match
  | ⟨span, hit, children⟩ => ⟨span.mapOffsets φ, hit, children.map (mapOffsets φ)⟩

instance : MapOffsets Match := ⟨Match.mapOffsets⟩

namespace Payment

def Iban.mapOffsets (φ : Nat → Nat) (n : Iban) : Iban := { n with span := n.span.mapOffsets φ }

instance : MapOffsets Iban := ⟨Iban.mapOffsets⟩

def CreditorReference.mapOffsets (φ : Nat → Nat) (r : CreditorReference) : CreditorReference :=
  { r with span := r.span.mapOffsets φ }

instance : MapOffsets CreditorReference := ⟨CreditorReference.mapOffsets⟩

def SiReference.Part.mapOffsets (φ : Nat → Nat) (p : SiReference.Part) : SiReference.Part :=
  { p with span := p.span.mapOffsets φ }

def SiReference.mapOffsets (φ : Nat → Nat) (r : SiReference) : SiReference :=
  { r with span := r.span.mapOffsets φ, parts := r.parts.map (SiReference.Part.mapOffsets φ) }

instance : MapOffsets SiReference := ⟨SiReference.mapOffsets⟩

end Payment

namespace Match

variable (φ : Nat → Nat)

theorem mapOffsets_mk (span : Span) (hit : Option Nat) (children : List Match) :
    mapOffsets φ ⟨span, hit, children⟩ =
      ⟨span.mapOffsets φ, hit, children.map (mapOffsets φ)⟩ := by
  rw [mapOffsets]

@[simp] theorem span_mapOffsets (m : Match) : (m.mapOffsets φ).span = m.span.mapOffsets φ := by
  cases m
  rw [mapOffsets]

@[simp] theorem mapOffsets_leaf (start stop : Nat) :
    (leaf start stop).mapOffsets φ = leaf (φ start) (φ stop) := by
  simp [leaf, mapOffsets, Span.mapOffsets]

theorem stopOf_mapOffsets (start : Nat) (ms : List Match) :
    stopOf (φ start) (ms.map (mapOffsets φ)) = φ (stopOf start ms) := by
  rw [stopOf, stopOf, List.getLast?_map]
  cases ms.getLast? with
  | none => rfl
  | some m => simp [Span.mapOffsets]

@[simp] theorem mapOffsets_joined (start : Nat) (ms : List Match) :
    (joined start ms).mapOffsets φ = joined (φ start) (ms.map (mapOffsets φ)) := by
  rw [joined, joined, mapOffsets, stopOf_mapOffsets]
  rfl

theorem mapOffsets_id : ∀ m : Match, m.mapOffsets id = m
  | ⟨span, hit, children⟩ => by
    have hchildren : children.map (mapOffsets id) = children := by
      rw [List.map_congr_left fun m _ => mapOffsets_id m, List.map_id']
    rw [mapOffsets_mk, hchildren]
    rfl

end Match

theorem Payment.SiReference.mapOffsets_id (r : SiReference) : r.mapOffsets id = r := by
  have hparts : r.parts.map (Part.mapOffsets id) = r.parts := List.map_id r.parts
  rw [mapOffsets, hparts]
  rfl

end Recognition
