set_option autoImplicit false
set_option relaxedAutoImplicit false

/-!
Where a program writes: a byte sequence that may have a limit.
-/

namespace Treewalk

/-- Everything written so far, and how many bytes there is room for in all. -/
structure Sink where
  written : ByteArray
  limit : Option Nat

namespace Sink

/-- A sink that nothing has been written to. -/
def empty (limit : Option Nat) : Sink :=
  ⟨ByteArray.empty, limit⟩

/-- Writes a text. Where there is no room for all of it, the bytes that fit are kept, and the answer
is `false`. -/
def write (s : Sink) (text : String) : Sink × Bool :=
  match s with
  | ⟨written, none⟩ => (⟨written ++ text.toUTF8, none⟩, true)
  | ⟨written, some limit⟩ =>
    let room := limit - written.size
    if text.utf8ByteSize ≤ room then (⟨written ++ text.toUTF8, some limit⟩, true)
    else (⟨written ++ text.toUTF8.extract 0 room, some limit⟩, false)

end Sink

end Treewalk
