/-!
# Levels

Every atom records the level it lives at: how many brackets enclose it, and how many loop bodies. Both
are counted in 64 bit integers, which wrap around.

A level also has room for a tag, by which an atom can be told from others that look the same. Reading
hands out no tags: an atom that a pass makes has the tag zero, and an atom that passes through keeps
its own.
-/

namespace WatScript

structure Level where
  depth : Int64
  loops : Int64
  tag : Nat
  deriving DecidableEq, Repr, Inhabited

namespace Level

def nested (depth loops : Int64) : Level := ⟨depth, loops, 0⟩

def top : Level := nested 0 0

def bare (lv : Level) : Level := nested lv.depth lv.loops

def enter (lv : Level) : Level := nested (lv.depth + 1) lv.loops

def enterLoop (lv : Level) : Level := nested (lv.depth + 1) (lv.loops + 1)

def moveTo (lv old : Level) : Level := ⟨lv.depth, lv.loops, old.tag⟩

end Level

end WatScript
