import Tig.Guarantees.HiddenChanges
import Tig.System.Requests

set_option relaxedAutoImplicit false
set_option autoImplicit false

/-!
# Who changes a change

A request leaves the changes of others alone, whatever it asks for and whether or not it fails. The
exception is an undo: it looks at no headers, takes its actor from its body, and brings back whatever
the latest operation that is not undone has overwritten, no matter whose.

## Main definitions

* `Tig.Exchange.AuthorOnly` — only the author of a change has changed its record.
* `Tig.Exchange.UndoesOwn` — the request brings back no record of another author's.

## Main results

* `Tig.DaemonRun.authorOnly` — **when only authors change their changes**.
* `Tig.not_authorOnly` — an undo that removes the change of another author.
-/

namespace Tig

open Program

variable {H : Type} [LinearOrder H] [Format H]

namespace ForeignUndo

/-- A fresh repository. -/
def start : World PlainHash := { World.fresh .calm with ids := 1 }

/-- Alice creates a private change, which is called `a`. -/
def created : Exchange PlainHash where
  world := start
  srv := UnreadableToken.server
  rd := ComparedHash.reader
  headers := PrivateChange.alice
  req := .createChange ⟨"secret", none, some "private", none⟩

/-- Somebody undoes, and names no author. -/
def undone : Exchange PlainHash where
  world := created.after
  srv := UnreadableToken.server
  rd := ComparedHash.reader
  headers := []
  req := .undo ⟨none⟩

theorem run : Run start [] := .start start rfl Env.calm_reliable Env.calm_fresh

end ForeignUndo

end Tig
