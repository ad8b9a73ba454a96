/-!
# Sets of threads

A thread is a location of a program. A set of threads keeps them in the order in which they were
inserted, and has a flag for every location, so that a location is found at once. To clear the set,
only the flags of its members are reset.
-/

namespace SchemaRegex

structure Threads where
  items : Array Nat
  flags : Array Bool

namespace Threads

def empty (capacity : Nat) : Threads := ⟨#[], .replicate capacity false⟩

def capacity (s : Threads) : Nat := s.flags.size

def isEmpty (s : Threads) : Bool := s.items.isEmpty

def toList (s : Threads) : List Nat := s.items.toList

/-- Adds a location, and tells whether it is new. One beyond the capacity is not added. -/
def insert (s : Threads) (location : Nat) : Bool × Threads :=
  if s.flags[location]? = some false then
    (true, ⟨s.items.push location, s.flags.setIfInBounds location true⟩)
  else (false, s)

def clear (s : Threads) : Threads :=
  ⟨#[], s.items.foldl (fun flags location => flags.setIfInBounds location false) s.flags⟩

def room (s : Threads) : Nat := s.flags.countP (· == false)

theorem room_insert {s : Threads} {location : Nat} (new : (s.insert location).1 = true) :
    (s.insert location).2.room < s.room := by
  have free : s.flags[location]? = some false := by
    simp only [insert] at new
    split at new
    case isTrue free => exact free
    case isFalse => simp at new
  obtain ⟨inside, value⟩ := Array.getElem?_eq_some_iff.mp free
  have one : 0 < s.flags.countP (· == false) :=
    Array.countP_pos_iff.mpr ⟨false, value ▸ Array.getElem_mem inside, rfl⟩
  have fewer : (s.flags.setIfInBounds location true).countP (· == false)
      = s.flags.countP (· == false) - 1 := by
    simp only [Array.setIfInBounds, dif_pos inside, Array.countP_set inside, value]
    rfl
  simp only [insert, if_pos free, room, fewer]
  omega

theorem insert_old {s : Threads} {location : Nat} (old : (s.insert location).1 = false) :
    (s.insert location).2 = s := by
  simp only [insert] at old ⊢
  split at old
  case isTrue => simp at old
  case isFalse taken => simp only [if_neg taken]

end Threads

end SchemaRegex
