import Tig.Core.Plain
import Tig.Fs.Rescan

set_option relaxedAutoImplicit false
set_option autoImplicit false

/-!
# Scanning and rendering are inverse

A directory that was scanned can be rendered from what the scan stored, and looks as it did, when
the targets of its symlinks are text. A target that is not is made text by the scan, so the link
that is rendered is another one.

## Main definitions

* `Tig.RoundTrips` — rendering what a scan stored gives back what it saw.
* `Tig.PortableLinks` — the symlinks that a scan sees have text as their targets.

## Main results

* `Tig.renderTreeInto_roundTrips_iff` — a scanned directory makes the round trip exactly when its
  links are portable.
-/

namespace Tig

open Program

variable {H : Type} [LinearOrder H] [Format H]

/-- Rendering the tree `root` into an empty directory succeeds, as long as the stack holds; it gives
the files, directories and symlinks that a scan of `copy` sees, and scanning it gives `root` again. -/
def RoundTrips (s : ObjectStore H) (opts : MaterializeOptions) (special : Node → Option Error)
    (dst : String) (ignore : List String) (copy : WorkingCopy) (root : H) : Prop :=
  ∃ depth₀, ∀ depth, depth₀ ≤ depth → ∃ stats dir,
    renderTreeInto s opts special dst depth root [] = .ok stats dir ∧
      (∀ path, (nodeAt ignore dir path).map Node.shape =
        (nodeAt ignore copy path).map Node.shape) ∧
      ∀ w : World H, w.env.Reliable → ∃ w', scan ignore dst dir w = .ok root w'

/-- The target of every symlink that a scan sees is text that a link can be made to. On disk, that
is every target that is well-formed UTF-8. -/
def PortableLinks (ignore : List String) (copy : WorkingCopy) : Prop :=
  ∀ path target, nodeAt ignore copy path = some (.symlink target) →
    ∃ text, Utf8.decode target = some text ∧ linkFault text = none

theorem PortableLinks.linkable {ignore : List String} {copy : WorkingCopy}
    (h : PortableLinks ignore copy) : Linkable ignore copy := by
  intro path target hpath
  obtain ⟨text, htext, hfault⟩ := h path target hpath
  rw [Utf8.encode_of_decode htext, Utf8.decodeLossy_encode]
  exact hfault

/-- Portable links are the same links once they are made text. -/
theorem PortableLinks.asText {ignore : List String} {copy : WorkingCopy}
    (h : PortableLinks ignore copy) {path : List String} {node : Node}
    (hnode : nodeAt ignore copy path = some node) : node.shape.asText = node.shape := by
  cases node with
  | symlink target =>
    obtain ⟨text, htext, -⟩ := h path target hnode
    show Shape.symlink _ = Shape.symlink target
    rw [Utf8.encode_of_decode htext, Utf8.decodeLossy_encode]
  | file bytes executable => rfl
  | dir children => rfl
  | other kind => rfl

/-- Links that stay what they are when made text are portable. -/
theorem portableLinks_of_asText {ignore : List String} {copy : WorkingCopy}
    (hlinks : Linkable ignore copy)
    (h : ∀ path node, nodeAt ignore copy path = some node → node.shape.asText = node.shape) :
    PortableLinks ignore copy := by
  intro path target hpath
  refine ⟨Utf8.decodeLossy target, ?_, hlinks path target hpath⟩
  have heq : Shape.symlink (Utf8.encode (Utf8.decodeLossy target)) = .symlink target :=
    h path _ hpath
  have htarget := Shape.symlink.inj heq
  exact (congrArg Utf8.decode htarget).symm.trans (Utf8.decode_encode _)

section

variable {s : ObjectStore H} {opts : MaterializeOptions} {special : Node → Option Error}
  {dst : String} {ignore : List String} {copy : WorkingCopy} {tree : Tree H}

/-- What a render of a scanned tree into an empty directory comes to. -/
theorem renderTreeInto_scanned (htree : recordTree ignore copy = some tree)
    (hs : CopyStoredIn s ignore copy) {depth : Nat}
    (hfits : Fits s depth ((encode H tree).hash H)) :
    Post (renderTreeInto s opts special dst depth ((encode H tree).hash H)) []
      (fun _ dir => Linkable ignore copy ∧ recordTree ignore dir = some tree ∧
        ∀ path, (nodeAt ignore dir path).map Node.shape =
          (nodeAt ignore copy path).map fun n => n.shape.asText)
      (fun _ _ => ¬ Linkable ignore copy) := by
  have hsorted := (wellStored_recordTree htree hs).whole.sortedBelow
  have hroot := hs.2 tree htree
  have hiff : (∃ dir, Depicts s opts depth _ "" dir) ↔ Linkable ignore copy :=
    exists_depicts_iff htree hs.1 hroot hsorted hfits
  rw [post_renderTreeInto]
  refine (placeTree_exact hsorted [] "").mono (fun _ dir hdir => ?_) (fun _ _ hnot hlinks => ?_)
  · exact ⟨hiff.mp ⟨dir, hdir⟩, hdir.rescan htree hs.1 hroot⟩
  · obtain ⟨dir, hdir⟩ := hiff.mpr hlinks
    exact hnot dir hdir

/-- A stored scan makes the round trip exactly when its links are portable. -/
theorem roundTrips_iff [LawfulFormat H] (htree : recordTree ignore copy = some tree)
    (hs : CopyStoredIn s ignore copy) :
    RoundTrips s opts special dst ignore copy ((encode H tree).hash H) ↔
      PortableLinks ignore copy := by
  obtain ⟨deep, hdeep⟩ := (wellStored_recordTree htree hs).whole.fits
  constructor
  · rintro ⟨depth₀, h⟩
    obtain ⟨stats, dir, hrun, hshapes, -⟩ := h (max depth₀ deep) (le_max_left _ _)
    have hfits := hdeep.mono (le_max_right depth₀ deep)
    obtain ⟨hlinks, -, htext⟩ := (renderTreeInto_scanned htree hs hfits).ok hrun
    refine portableLinks_of_asText hlinks fun path node hnode => ?_
    have heq := (htext path).symm.trans (hshapes path)
    rw [hnode] at heq
    exact Option.some.inj heq
  · intro hlinks
    refine ⟨deep, fun depth hdepth => ?_⟩
    have hpost : Post (renderTreeInto s opts special dst depth ((encode H tree).hash H)) [] _ _ :=
      renderTreeInto_scanned htree hs (hdeep.mono hdepth)
    obtain ⟨stats, dir, hrun, -, hrecord, htext⟩ :=
      (hpost.mono (fun _ _ h => h) (fun _ _ h => h hlinks.linkable)).exists_ok
    refine ⟨stats, dir, hrun, fun path => ?_, fun w hrel => ?_⟩
    · rw [htext]
      cases hnode : nodeAt ignore copy path with
      | none => rfl
      | some node => exact congrArg some (hlinks.asText hnode)
    · have hscan : Post (scan ignore dst dir) w (fun root _ => root = (encode H tree).hash H)
          (fun _ _ => False) := by
        refine scan_spec (fun tree' w' _ htree' => ?_) (fun e w' _ he => ?_)
        · rw [Option.some.inj (htree'.symm.trans hrecord)]
        · rcases he with hf | hnone
          · exact absurd hf (hrel.not_fault e)
          · rw [hrecord] at hnone
            cases hnone
      obtain ⟨root, w', hw', rfl⟩ := hscan.exists_ok
      exact ⟨w', hw'⟩

/-- What a scan that returned has stored. -/
theorem stored_of_scan [LawfulFormat H] {w w' : World H} {workdir : String} {root : H}
    (hi : w.repo.objects.Intact) (hscan : scan ignore workdir copy w = .ok root w') :
    ∃ tree : Tree H, recordTree ignore copy = some tree ∧ root = (encode H tree).hash H ∧
      CopyStoredIn w'.repo.objects ignore copy := by
  have hpost : Post (scan ignore workdir copy) w (fun root w' => ∃ tree : Tree H,
      recordTree ignore copy = some tree ∧ root = (encode H tree).hash H ∧
        CopyStoredIn w'.repo.objects ignore copy) (fun _ _ => True) :=
    scan_spec (fun tree w' hgrew htree => ⟨tree, htree, rfl, hgrew.stored hi⟩)
      (fun _ _ _ _ => trivial)
  exact hpost.ok hscan

/-- **Scanning and rendering** are inverse on a directory exactly when the symlinks in it have
targets that are text. -/
theorem renderTreeInto_roundTrips_iff [LawfulFormat H] {w w' : World H} {workdir : String} {root : H}
    (hi : w.repo.objects.Intact) (hscan : scan ignore workdir copy w = .ok root w')
    (opts : MaterializeOptions) (special : Node → Option Error) (dst : String) :
    RoundTrips w'.repo.objects opts special dst ignore copy root ↔ PortableLinks ignore copy := by
  obtain ⟨tree, htree, rfl, hs⟩ := stored_of_scan hi hscan
  exact roundTrips_iff htree hs

end

/-! ## A link whose target is not text -/

namespace ForeignLink

/-- A directory with a symlink whose target is one byte that is no text. -/
def copy : WorkingCopy := [(Utf8.encode "l", .symlink [255])]

/-- The repository after a scan. -/
def world : World PlainHash := final (scan defaultIgnore "/repo" copy) (World.fresh .calm)

/-- The tree that the scan makes. -/
def tree : Tree PlainHash :=
  ⟨[⟨"l", .symlink, (encode PlainHash (linkBlob [255])).hash PlainHash, .SYMLINK, none⟩]⟩

end ForeignLink

/-- The link that is rendered is another one. -/
theorem renderTreeInto_changes_link :
    scan defaultIgnore "/repo" ForeignLink.copy (World.fresh .calm) =
        .ok ((encode PlainHash ForeignLink.tree).hash PlainHash) ForeignLink.world ∧
      ¬ RoundTrips ForeignLink.world.repo.objects ⟨none, .error⟩ (fun _ => none) "/out"
        defaultIgnore ForeignLink.copy ((encode PlainHash ForeignLink.tree).hash PlainHash) := by
  have hscan : scan defaultIgnore "/repo" ForeignLink.copy (World.fresh .calm) =
      .ok ((encode PlainHash ForeignLink.tree).hash PlainHash) ForeignLink.world := rfl
  refine ⟨hscan, fun h => ?_⟩
  obtain ⟨tree, htree, heq, hs⟩ := stored_of_scan ObjectStore.intact_empty hscan
  rw [heq] at h
  have hlinks := (roundTrips_iff htree hs).mp h
  obtain ⟨text, htext, -⟩ := hlinks ["l"] [255] rfl
  have hnone : Utf8.decode [255] = none := by decide +kernel
  rw [hnone] at htext
  cases htext

namespace PlainCopy

/-- A directory with a program, an empty directory and a symlink. -/
def copy : WorkingCopy :=
  [(Utf8.encode "empty", .dir []), (Utf8.encode "link", .symlink (Utf8.encode "run")),
    (Utf8.encode "run", .file [35] true)]

/-- The repository after a scan. -/
def world : World PlainHash := final (scan defaultIgnore "/repo" copy) (World.fresh .calm)

/-- The tree that the scan makes. -/
def tree : Tree PlainHash :=
  ⟨[⟨"empty", .tree, (encode PlainHash (Tree.new : Tree PlainHash)).hash PlainHash, .DIR, none⟩,
    ⟨"link", .symlink, (encode PlainHash (linkBlob (Utf8.encode "run"))).hash PlainHash, .SYMLINK,
      none⟩,
    ⟨"run", .file, (encode PlainHash (Blob.mk [35])).hash PlainHash, .EXEC, none⟩]⟩

theorem portableLinks : PortableLinks defaultIgnore copy := by
  have hnode : ∀ name node, findChild defaultIgnore name copy = some node →
      node = .dir [] ∨ node = .symlink (Utf8.encode "run") ∨ node = .file [35] true := by
    intro name node hf
    have hmem := mem_of_findChild hf
    simp only [copy, List.mem_cons, List.not_mem_nil, or_false] at hmem
    rcases hmem with h | h | h
    · exact Or.inl (Prod.ext_iff.mp h).2
    · exact Or.inr (Or.inl (Prod.ext_iff.mp h).2)
    · exact Or.inr (Or.inr (Prod.ext_iff.mp h).2)
  intro path target hpath
  match path with
  | [] => cases hpath
  | [name] =>
    rcases hnode name _ hpath with h | h | h
    · cases h
    · refine ⟨"run", ?_, by decide⟩
      rw [Node.symlink.inj h]
      exact Utf8.decode_encode "run"
    · cases h
  | name :: next :: rest =>
    rw [nodeAt] at hpath
    cases hf : findChild defaultIgnore name copy with
    | none =>
      rw [hf] at hpath
      cases hpath
    | some node =>
      rw [hf] at hpath
      rcases hnode name node hf with rfl | rfl | rfl
      · cases rest <;> cases hpath
      · cases hpath
      · cases hpath

end PlainCopy

set_option maxRecDepth 1000000 in
/-- A program, an empty directory and a link make the round trip. -/
theorem renderTreeInto_plainCopy :
    RoundTrips PlainCopy.world.repo.objects ⟨none, .error⟩ (fun _ => none) "/out" defaultIgnore
      PlainCopy.copy ((encode PlainHash PlainCopy.tree).hash PlainHash) :=
  have hscan : scan defaultIgnore "/repo" PlainCopy.copy (World.fresh .calm) =
      .ok ((encode PlainHash PlainCopy.tree).hash PlainHash) PlainCopy.world := rfl
  (renderTreeInto_roundTrips_iff ObjectStore.intact_empty hscan ⟨none, .error⟩ (fun _ => none)
    "/out").mpr PlainCopy.portableLinks

end Tig
