import LutLogic.Cell.Basic
import LutLogic.Contents.Run

/-!
# Changes of cells

A cell changes in its mode, its output pin or its contents, and it can be made a static source.
Only a change of the contents can be refused, and the cell then keeps what this leaves of them.
-/

namespace LutLogic.Cell

/-- A change of a cell. -/
inductive Change where
  /-- Use the table as something else. -/
  | mode (mode : Mode)
  /-- Drive another output pin, or none. -/
  | pin (pin : Option String)
  /-- Replace the contents. -/
  | contents (contents : Contents)
  /-- Become a static source. -/
  | source (output : Bool)
  /-- Change the contents. -/
  | within (change : Contents.Change)
deriving DecidableEq

/-- Makes a change, and reports it if it is refused. -/
def change (c : Cell) : Change → Option LutError × Cell
  | .mode m => (none, { c with mode := m })
  | .pin p => (none, { c with pin := p })
  | .contents d => (none, { c with contents := d })
  | .source output => (none, c.setSource output)
  | .within r =>
    let (refusal, d) := c.contents.change r
    (refusal, { c with contents := d })

end LutLogic.Cell
