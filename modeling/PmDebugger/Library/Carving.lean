import Mathlib.Data.List.Basic
import Mathlib.Tactic.Common

/-!
# Carving a collection of ranges

A collection of elements, each covering some bytes, is carved into another one when
every new element is a part of an old one and every byte that may not be lost keeps an
element that covers it. How a part may differ from its source is a relation that can
look at the byte, so that a change of state within some range can be expressed.

Only membership counts, so collections are lists and their order is irrelevant.
-/

namespace Carving

universe u v
variable {α : Type u} {β : Type v}

/-- The new elements are parts of the old ones, and bytes that may not be lost stay
covered. -/
structure Carved (covers : α → β → Prop) (like : β → α → α → Prop) (lost : β → Prop)
    (old new : List α) : Prop where
  origin : ∀ part ∈ new, ∃ source ∈ old, ∀ byte, covers part byte →
    covers source byte ∧ like byte source part
  kept : ∀ source ∈ old, ∀ byte, covers source byte → ¬ lost byte →
    ∃ part ∈ new, covers part byte ∧ like byte source part

/-- How a part may differ from its source: not at all, and as a part of a part may. -/
structure Likeness (like : β → α → α → Prop) : Prop where
  refl : ∀ byte source, like byte source source
  trans : ∀ byte first second third, like byte first second → like byte second third →
    like byte first third

namespace Carved

variable {covers : α → β → Prop} {like : β → α → α → Prop} {lost : β → Prop}
  {old middle new old' new' : List α}

/-- Nothing is carved off. -/
theorem refl (likeness : Likeness like) (elems : List α) : Carved covers like lost elems elems where
  origin part member := ⟨part, member, fun byte inside => ⟨inside, likeness.refl byte part⟩⟩
  kept source member byte inside _ := ⟨source, member, inside, likeness.refl byte source⟩

/-- What is carved twice loses what is lost at either time, and a part of a part is as it may
be. -/
theorem trans (likeness : Likeness like)
    (first : Carved covers like lost old middle) (second : Carved covers like lost middle new) :
    Carved covers like lost old new where
  origin part member := by
    obtain ⟨between, isBetween, fromBetween⟩ := second.origin part member
    obtain ⟨source, isSource, fromSource⟩ := first.origin between isBetween
    refine ⟨source, isSource, fun byte inside => ?_⟩
    obtain ⟨covered, secondLike⟩ := fromBetween byte inside
    obtain ⟨sourceCovers, firstLike⟩ := fromSource byte covered
    exact ⟨sourceCovers, likeness.trans byte _ _ _ firstLike secondLike⟩
  kept source member byte inside needed := by
    obtain ⟨between, isBetween, covered, firstLike⟩ := first.kept source member byte inside needed
    obtain ⟨part, isPart, inPart, secondLike⟩ := second.kept between isBetween byte covered needed
    exact ⟨part, isPart, inPart, likeness.trans byte _ _ _ firstLike secondLike⟩

/-- One element is exchanged for parts of it and the others stay. -/
theorem exchange (likeness : Likeness like) {elem : α} {parts : List α} (member : elem ∈ old)
    (members : ∀ tested, tested ∈ new ↔ tested ∈ parts ∨ tested ∈ old ∧ tested ≠ elem)
    (carved : Carved covers like lost [elem] parts) : Carved covers like lost old new where
  origin part isPart := by
    rcases (members part).mp isPart with fromElem | ⟨stays, _⟩
    · obtain ⟨source, isSource, rest⟩ := carved.origin part fromElem
      rw [List.mem_singleton.mp isSource] at rest
      exact ⟨elem, member, rest⟩
    · exact ⟨part, stays, fun byte inside => ⟨inside, likeness.refl byte part⟩⟩
  kept source isSource byte inside needed := by
    by_cases same : source = elem
    · obtain ⟨part, isPart, rest⟩ :=
        carved.kept source (List.mem_singleton.mpr same) byte inside needed
      exact ⟨part, (members part).mpr (.inl isPart), rest⟩
    · exact ⟨source, (members source).mpr (.inr ⟨isSource, same⟩), inside,
        likeness.refl byte source⟩

/-- More bytes may be lost. -/
theorem weaken {lost' : β → Prop} (carved : Carved covers like lost old new)
    (weaker : ∀ byte, lost byte → lost' byte) : Carved covers like lost' old new where
  origin := carved.origin
  kept source member byte inside needed :=
    carved.kept source member byte inside (fun isLost => needed (weaker byte isLost))

end Carved

end Carving
