import Choreo.Block.Basic

/-!
# Checking blocks

A block that was put together without looking at what its kind allows is checked by building it
again: its parameters in listing order, then child by child the child and its place under the block.
The first step that fails says what is wrong; the block that comes out is valid.
-/

namespace Choreo.Block

mutual

/-- The block built step by step. -/
def checked : Block → Except BlockError Block
  | ⟨kind, settings, children⟩ => do
    let b ← settings.toList.foldlM (fun b (param, value) => b.set param value) (ofKind kind)
    pushChecked b children

/-- The block with more children, each built step by step before it is added. -/
def pushChecked (b : Block) : List Block → Except BlockError Block
  | [] => .ok b
  | child :: rest => do
    let child ← child.checked
    let b ← b.push child
    pushChecked b rest

end

end Choreo.Block
