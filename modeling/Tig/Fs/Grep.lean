import Tig.Fs.Materialize
import Tig.Fs.Text

set_option relaxedAutoImplicit false
set_option autoImplicit false

/-!
# Searching the files of a tree

Every regular file of a tree that is not binary is searched line by line, for a text or for a
regular expression. The number of matches in a file and in all can be capped; the search ends where
a cap is reached.

## Main definitions

* `Tig.GrepMatch`, `Tig.GrepOptions` — a match, and how to search.
* `Tig.grepTree` — the matches in a tree.
-/

namespace Tig

/-- A line that matches, without its ending. Lines are counted from 1. -/
structure GrepMatch where
  path : String
  lineNumber : Nat
  line : String
deriving DecidableEq, Repr

/-- How to search. -/
structure GrepOptions where
  regex : Bool
  ignoreCase : Bool
  paths : List String
  maxMatchesPerFile : Option Nat
  maxTotalMatches : Option Nat

/-! ## Matching a line -/

/-- What lines are matched against. -/
inductive Matcher where
  | literal (needle : String) (ignoreCase : Bool)
  | regex (isMatch : String → Bool)

section Matcher

variable (lib : TextLib)

/-- What a pattern stands for. -/
def Matcher.compile (pattern : String) (opts : GrepOptions) : Except Error Matcher :=
  if opts.regex then
    match lib.regex pattern opts.ignoreCase with
    | .ok isMatch => .ok (.regex isMatch)
    | .error e => .error (.core (.decode ("invalid regex " ++ debugStr pattern ++ ": " ++ e)))
  else
    .ok (.literal (if opts.ignoreCase then lib.lowercase pattern else pattern) opts.ignoreCase)

/-- Does a line match? -/
def Matcher.isMatch (matcher : Matcher) (line : String) : Bool :=
  match matcher with
  | literal needle ignoreCase =>
    if ignoreCase then containsText (lib.lowercase line) needle else containsText line needle
  | regex isMatch => isMatch line

end Matcher

/-! ## Walking the tree -/

/-- Is a path searched? Only those that start with one of the filters, if there are any. -/
def pathPassesFilter (path : String) (paths : List String) : Bool :=
  paths.isEmpty || paths.any fun p => startsWith path p

/-- Has the cap on all matches been reached? -/
def atGlobalCap (opts : GrepOptions) (out : List GrepMatch) : Bool :=
  opts.maxTotalMatches.any fun cap => out.length ≥ cap

section Walk

variable (lib : TextLib) (opts : GrepOptions) (matcher : Matcher)

/-- Search lines, of which the first has the number `n`, in a file with `perFile` matches so far,
until a cap is reached. -/
def grepLines (path : String) : (n perFile : Nat) → List String → List GrepMatch → List GrepMatch
  | _, _, [], out => out
  | n, perFile, line :: rest, out =>
    if matcher.isMatch lib line then
      let out := out ++ [⟨path, n, line⟩]
      if opts.maxMatchesPerFile.any (· ≤ perFile + 1) || atGlobalCap opts out then out
      else grepLines path (n + 1) (perFile + 1) rest out
    else grepLines path (n + 1) perFile rest out

variable {H : Type} [LinearOrder H] [Format H] (s : ObjectStore H)

/-- Search the entries of a directory; `descend` searches a directory. -/
def walkEntries (descend : H → String → List GrepMatch → Except Error (List GrepMatch))
    (pathPrefix : String) : List (TreeEntry H) → List GrepMatch → Except Error (List GrepMatch)
  | [], out => .ok out
  | entry :: rest, out =>
    if atGlobalCap opts out then .ok out
    else
      let path := entryPath pathPrefix entry.name
      match entry.kind with
      | .file =>
        if pathPassesFilter path opts.paths then do
          let blob : Blob ← s.load entry.target
          if isBinary blob.bytes then walkEntries descend pathPrefix rest out
          else
            walkEntries descend pathPrefix rest
              (grepLines lib opts matcher path 1 0 (lines (Utf8.decodeLossy blob.bytes)) out)
        else walkEntries descend pathPrefix rest out
      | .tree => do
        let out ← descend entry.target path out
        walkEntries descend pathPrefix rest out
      | .sealed | .conflict | .submodule | .symlink => walkEntries descend pathPrefix rest out

/-- Search a directory. `depth` is how deep the recursion can go before the stack overflows, which
ends the process. -/
def grepWalk : (depth : Nat) → H → String → List GrepMatch → Except Error (List GrepMatch)
  | 0, _, _, _ => .error (.io "stack overflow")
  | depth + 1, treeHash, pathPrefix, out => do
    let tree : Tree H ← s.load treeHash
    walkEntries lib opts matcher s (grepWalk depth) pathPrefix tree.entries out

end Walk

/-- The matches of a pattern in the files of a tree. -/
def grepTree {H : Type} [LinearOrder H] [Format H] (lib : TextLib) (s : ObjectStore H)
    (opts : GrepOptions) (depth : Nat) (treeHash : H) (pattern : String) :
    Except Error (List GrepMatch) :=
  if pattern = "" then .error (.core (.decode "grep pattern must be non-empty"))
  else do
    let matcher ← Matcher.compile lib pattern opts
    grepWalk lib opts matcher s depth treeHash "" []

end Tig
