/-!
# Splitting lists into runs

Hex dumps and reference rows cut a list into consecutive runs of one size, of which only the last may
be shorter.
-/

namespace GscAssembler.Bytes

/-- At most `count` runs of `size` elements from the front of a list. -/
def takeChunks {α : Type} (size : Nat) : (count : Nat) → List α → List (List α)
  | 0, _ => []
  | _ + 1, [] => []
  | count + 1, x :: rest =>
      (x :: rest).take size :: takeChunks size count ((x :: rest).drop size)

/-- A list cut into runs of `size` elements; the last run may be shorter. -/
def chunks {α : Type} (size : Nat) (xs : List α) : List (List α) :=
  takeChunks size xs.length xs

end GscAssembler.Bytes
