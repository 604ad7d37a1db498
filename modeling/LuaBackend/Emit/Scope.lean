import LuaBackend.Emit.Fault
import LuaBackend.Lua.Text

/-!
# Where code is written

What is written for a node depends on the class around it and on the
loops and protected bodies around it. These are the scope. A counter of
labels runs through the whole of the written code, and a depth says how
far lines are indented. All of these make up the context.
-/

namespace LuaBackend.Emit

/-- Something that a break or continue meets on its way out. -/
inductive Frame where
  /-- A loop, with the label at the end of its body; zero if there is
  none. -/
  | loop (label : UInt32)
  /-- A protected body, which is a Lua function: jumps cannot leave it. -/
  | protect
deriving DecidableEq, Inhabited

/-- The surroundings of a node. -/
structure Scope where
  /-- The Lua name of the superclass; empty if there is none. -/
  base : String := ""
  /-- The node stands in the body of a constructor. -/
  inCtor : Bool := false
  /-- Loops and protected bodies, innermost first. -/
  control : List Frame := []
deriving DecidableEq, Inhabited

/-- What lasts from one written unit to the next. -/
structure Context where
  /-- The declaration being written. -/
  current : TypePath := {}
  /-- What trees are written in. -/
  scope : Scope := {}
  layout : Lua.Layout := {}
  /-- The next label. -/
  nextLabel : UInt32 := 1
deriving DecidableEq, Inhabited

namespace Context

/-- Pushes a frame. -/
def push (frame : Frame) (context : Context) : Context :=
  { context with scope.control := frame :: context.scope.control }

/-- Pops a frame. -/
def pop (context : Context) : Context :=
  { context with scope.control := context.scope.control.tail }

/-- Takes away the frames and the mark of a constructor. -/
def clear (context : Context) : Context :=
  { context with scope.control := [], scope.inCtor := false }

/-- Puts back the frames and the mark of a constructor that there were
before. -/
def restore (before after : Context) : Context :=
  { after with scope.control := before.scope.control, scope.inCtor := before.scope.inCtor }

/-- Goes one level deeper. -/
def deepen (context : Context) : Context :=
  { context with layout.depth := context.layout.depth + 1 }

/-- Goes back up one level. -/
def raise (context : Context) : Context :=
  { context with layout.depth := context.layout.depth - 1 }

end Context

end LuaBackend.Emit
