import Tig.Fs.Text
import Tig.Fs.TreeEdit

set_option relaxedAutoImplicit false
set_option autoImplicit false

/-!
# Who introduced a line

The lines of a file are attributed to snapshots by walking back through first parents: a line that
the line diff finds unchanged keeps the attribution it has in the parent, any other line is
attributed to the snapshot itself.

## Main definitions

* `Tig.BlameLine` — a line with its attribution.
* `Tig.blameAt` — the attribution of every line of a file at a snapshot.
-/

namespace Tig

/-- A line, without its ending, with the snapshot that introduced it or changed it last. -/
structure BlameLine (H : Type) where
  line : String
  snap : H
  author : PrincipalId
  timestampNs : Nat
  message : Option String
deriving DecidableEq, Repr

section Lines

variable {H : Type}

/-- A line attributed to a snapshot. -/
def synthesizeLine (line : String) (snapHash : H) (snap : Snapshot H) : BlameLine H where
  line := line
  snap := snapHash
  author := snap.author
  timestampNs := snap.timestampNs
  message := snap.message

/-- All lines attributed to one snapshot. -/
def makeLinesFrom (ls : List String) (snapHash : H) (snap : Snapshot H) : List (BlameLine H) :=
  ls.map fun line => synthesizeLine line snapHash snap

/-- The attributions of the lines that a line diff leaves, given those of the parent's lines. -/
def inheritLines (parentAttrs : List (BlameLine H)) (snapHash : H) (snap : Snapshot H) :
    List LineChange → Except Error (List (BlameLine H))
  | [] => .ok []
  | change :: rest => do
    let out ← inheritLines parentAttrs snapHash snap rest
    let own := synthesizeLine (stripEol change.value) snapHash snap
    match change.tag with
    | .equal =>
      match change.oldIndex with
      | none => .error (.corrupt "Equal must have an old_index")
      | some parentIdx => .ok (parentAttrs.getD parentIdx own :: out)
    | .insert => .ok (own :: out)
    | .delete => .ok out

end Lines

variable {H : Type} [LinearOrder H] [Format H]

/-- The attribution of every line of the file `path` at a snapshot. `depth` is how deep the
recursion can go before the stack overflows, which ends the process. -/
def blameAt (lib : TextLib) (s : ObjectStore H) (path : String) :
    (depth : Nat) → H → Except Error (List (BlameLine H))
  | 0, _ => .error (.io "stack overflow")
  | depth + 1, targetSnap => do
    let snap : Snapshot H ← s.load targetSnap
    match ← tryReadBlobAtPath s snap.tree path with
    | none => .error (.core (.decode ("path " ++ debugStr path ++
        " does not exist as a regular file at snapshot " ++ shortHex targetSnap)))
    | some currentBytes =>
      if isBinary currentBytes then
        .error (.core (.decode ("path " ++ debugStr path ++ " is a binary file; blame doesn't apply")))
      else
        let currentText := Utf8.decodeLossy currentBytes
        let own := makeLinesFrom (lines currentText) targetSnap snap
        match snap.parents with
        | [] => .ok own
        | parentHash :: _ => do
          let parentSnap : Snapshot H ← s.load parentHash
          match ← tryReadBlobAtPath s parentSnap.tree path with
          | none => .ok own
          | some parentBytes =>
            if isBinary parentBytes then .ok own
            else do
              let parentAttrs ← blameAt lib s path depth parentHash
              inheritLines parentAttrs targetSnap snap
                (lib.lineChanges (Utf8.decodeLossy parentBytes) currentText)

end Tig
