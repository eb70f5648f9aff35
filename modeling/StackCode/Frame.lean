import StackCode.Value

/-!
# Frames

Every call makes a frame. A frame has a parent, which is the frame that the called
closure captured, a place to return to, and slots once they are allocated. Frames are
numbered in the order in which they are made and never taken away, so a frame can be
named by its number; a parent and a caller are always older than the frame itself.
-/

namespace StackCode

/-- Where a call returns to. -/
structure ReturnPoint where
  /-- The offset of the next instruction. -/
  ip : Nat
  /-- The number of the calling frame. -/
  caller : Nat
  deriving DecidableEq

/-- A frame. -/
structure Frame where
  /-- The number of the frame that encloses it. -/
  parent : Option Nat := none
  /-- The entry of the closure it was made for. -/
  entry : Option Nat := none
  /-- Where it returns to. -/
  returnPoint : Option ReturnPoint := none
  /-- Its slots, once they are allocated; a slot holds nothing until a value is stored. -/
  slots : Option (Array (Option Value)) := none
  deriving DecidableEq

namespace Frame

/-- The outermost frame. -/
def root : Frame := {}

/-- A frame for a call of the closure at `entry` that captured `parent`. -/
def call (parent entry : Nat) (returnPoint : ReturnPoint) : Frame :=
  ⟨some parent, some entry, some returnPoint, none⟩

/-- Whether the slots are allocated. -/
def isEntered (f : Frame) : Bool := f.slots.isSome

/-- Allocate the slots. -/
def enter (f : Frame) (size : Nat) : Frame := { f with slots := some (Array.replicate size none) }

/-- The index of the slot at an offset. -/
def slot (f : Frame) (offset : Int32) : Except Fault Nat :=
  match f.slots with
  | none => .error .notEntered
  | some slots =>
    match Word.toNat? offset with
    | none => .error (.indexOutOfRange offset slots.size)
    | some i => if i < slots.size then .ok i else .error (.indexOutOfRange offset slots.size)

/-- The value in the slot with an index. -/
def read? (f : Frame) (i : Nat) : Option Value := f.slots.bind fun slots => slots[i]?.join

/-- The value in the slot at an offset. -/
def load (f : Frame) (offset : Int32) : Except Fault Value := do
  let i ← f.slot offset
  match f.read? i with
  | some v => return v
  | none => throw (.uninitializedSlot i)

/-- Put a value into the slot with an index. -/
def write (f : Frame) (i : Nat) (v : Value) : Frame :=
  { f with slots := f.slots.map fun slots => slots.setIfInBounds i (some v) }

end Frame

/-- All frames made so far, by number. -/
structure Frames where
  /-- The frames in the order in which they were made. -/
  toArray : Array Frame
  deriving DecidableEq

namespace Frames

/-- The frames of a machine that has not run. -/
def initial : Frames := ⟨#[Frame.root]⟩

/-- How many frames there are, which is the number of the next one. -/
def size (fs : Frames) : Nat := fs.toArray.size

/-- The frame with a number; there is an outermost frame at every number not yet used. -/
def get (fs : Frames) (i : Nat) : Frame := fs.toArray.getD i Frame.root

/-- Make a new frame. -/
def push (fs : Frames) (f : Frame) : Frames := ⟨fs.toArray.push f⟩

/-- Change the frame with a number. -/
def modify (fs : Frames) (i : Nat) (change : Frame → Frame) : Frames :=
  ⟨fs.toArray.modify i change⟩

/-- Allocate the slots of a frame, which can be done once. -/
def enter (fs : Frames) (i size : Nat) : Except Fault Frames :=
  if (fs.get i).isEntered then .error .alreadyEntered else .ok (fs.modify i (·.enter size))

/-- Store a value in a slot of a frame. -/
def store (fs : Frames) (i : Nat) (offset : Int32) (v : Value) : Except Fault Frames :=
  ((fs.get i).slot offset).map fun k => fs.modify i (·.write k v)

/-- The frame that many levels around a frame. -/
def ancestor? (fs : Frames) : Nat → Nat → Option Nat
  | 0, i => some i
  | levels + 1, i => (fs.get i).parent.bind (fs.ancestor? levels)

/-- The frame that many levels around a frame, the frame itself if the number is
negative. -/
def ancestor (fs : Frames) (i : Nat) (depth : Int32) : Except Fault Nat :=
  match fs.ancestor? depth.toInt.toNat i with
  | some a => .ok a
  | none => .error (.noEnclosingFrame depth)

/-- The frames around frame `i` and that frame, outermost first, before those in `inner`.
A parent is older than its frame, and a link that is not so is not followed. -/
def path (fs : Frames) (i : Nat) (inner : List Nat) : List Nat :=
  match (fs.get i).parent with
  | none => i :: inner
  | some p => if p < i then fs.path p (i :: inner) else i :: inner
termination_by i

/-- How many frames are around a frame, itself included. -/
def depth (fs : Frames) (i : Nat) : Nat := (fs.path i []).length

@[simp] theorem size_push (fs : Frames) (f : Frame) : (fs.push f).size = fs.size + 1 := by
  simp [push, size]

@[simp] theorem size_modify (fs : Frames) (i : Nat) (change : Frame → Frame) :
    (fs.modify i change).size = fs.size := by
  simp [modify, size]

/-- A new frame has the next number and leaves the others as they are. -/
theorem get_push (fs : Frames) (f : Frame) (i : Nat) :
    (fs.push f).get i = if i = fs.size then f else fs.get i := by
  simp only [push, get, size, Array.getD_eq_getD_getElem?, Array.getElem?_push]
  split <;> simp_all

/-- A change of a frame leaves the others as they are. -/
theorem get_modify (fs : Frames) {i : Nat} (h : i < fs.size) (change : Frame → Frame) (j : Nat) :
    (fs.modify i change).get j = if i = j then change (fs.get j) else fs.get j := by
  simp only [modify, get, size, Array.getD_eq_getD_getElem?, Array.getElem?_modify] at h ⊢
  split
  · subst j
    simp [h]
  · rfl

end Frames

end StackCode
