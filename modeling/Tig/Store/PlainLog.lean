import Tig.Core.Plain
import Tig.Store.LogFile

set_option relaxedAutoImplicit false
set_option autoImplicit false

/-!
# Log records in the plain format

A lawful codec of log records, made of the same combinators as the plain format of objects: it
shows that the law asked of a codec can be met, and log files can be written down with it.

## Main definitions

* `Tig.plainOpCodec` — the codec.

## Main results

* `Tig.plainOpCodec_lawful` — it decodes what it encoded.
-/

namespace Tig

namespace Plain

/-- The encoding of a change state. -/
def changeState : Wire ChangeState :=
  Wire.nat.map
    (fun
      | .working => 0
      | .draft => 1
      | .review => 2
      | .landed => 3
      | .abandoned => 4)
    (fun
      | 0 => .working
      | 1 => .draft
      | 2 => .review
      | 3 => .landed
      | _ => .abandoned)
    (by rintro (_ | _) <;> rfl)

/-- The encoding of a visibility: a tag and a name. -/
def visLabel : Wire VisLabel :=
  (Wire.nat.pair Wire.string).map
    (fun
      | .Public => (0, "")
      | .Private => (1, "")
      | .Org name => (2, name)
      | .Team name => (3, name)
      | .Principal id => (4, id))
    (fun
      | (0, _) => .Public
      | (1, _) => .Private
      | (2, name) => .Org name
      | (3, name) => .Team name
      | (_, id) => .Principal id)
    (by rintro (_ | _) <;> rfl)

/-- The encoding of a change record. -/
def change : Wire (Change PlainHash) :=
  (Wire.string.pair (hash.pair ((Wire.option Wire.string).pair (Wire.string.pair
    (changeState.pair ((Wire.list hash).pair (Wire.string.pair visLabel))))))).map
    (fun c => (c.id, c.current, c.bookmark, c.description, c.state, c.history, c.author,
      c.visibility))
    (fun p => ⟨p.1, p.2.1, p.2.2.1, p.2.2.2.1, p.2.2.2.2.1, p.2.2.2.2.2.1, p.2.2.2.2.2.2.1,
      p.2.2.2.2.2.2.2⟩)
    (fun _ => rfl)

/-- The encoding of a workspace manifest. -/
def manifest : Wire WorkspaceManifest :=
  (Wire.string.pair (Wire.string.pair (Wire.string.pair (Wire.string.pair Wire.nat)))).map
    (fun m => (m.id, m.name, m.location, m.changeId, m.createdNs))
    (fun p => ⟨p.1, p.2.1, p.2.2.1, p.2.2.2.1, p.2.2.2.2⟩)
    (fun _ => rfl)

/-- The encoding of a captured ref: a tag, a name, and what the ref of each kind points at. -/
def refSnapshot : Wire (RefSnapshot PlainHash) :=
  (Wire.nat.pair (Wire.string.pair ((Wire.option Wire.string).pair
    ((Wire.option change).pair (Wire.option manifest))))).map
    (fun
      | .head value => (0, "", value, none, none)
      | .change id value => (1, id, none, value.map Subtype.val, none)
      | .workspace id value => (2, id, none, none, value.map Subtype.val)
      | .bookmark name value => (3, name, value, none, none))
    (fun
      | (0, _, value, _, _) => .head value
      | (1, id, _, value, _) =>
        .change id (value.bind fun c => if h : c.id = id then some ⟨c, h⟩ else none)
      | (2, id, _, _, value) =>
        .workspace id (value.bind fun m => if h : m.id = id then some ⟨m, h⟩ else none)
      | (_, name, value, _, _) => .bookmark name value)
    (by
      rintro (value | ⟨id, value | ⟨c, rfl⟩⟩ | ⟨id, value | ⟨m, rfl⟩⟩ | ⟨name, value⟩)
      all_goals simp)

/-- The encoding of an operation's kind: a tag, and the fields of all kinds. -/
def opKind : Wire (OpKind PlainHash) :=
  (Wire.nat.pair (hash.pair (Wire.string.pair (Wire.string.pair ((Wire.option Wire.string).pair
    (changeState.pair (changeState.pair (visLabel.pair (visLabel.pair Wire.nat))))))))).map
    (fun
      | .snap h msg => (0, h, "", "", msg, .working, .working, .Public, .Public, 0)
      | .changeNew id d => (1, [], id, d, none, .working, .working, .Public, .Public, 0)
      | .wtMake id n => (2, [], id, n, none, .working, .working, .Public, .Public, 0)
      | .wtDrop id n => (3, [], id, n, none, .working, .working, .Public, .Public, 0)
      | .changeTransition id s s' v v' => (4, [], id, "", none, s, s', v, v', 0)
      | .undo n => (5, [], "", "", none, .working, .working, .Public, .Public, n))
    (fun
      | (0, h, _, _, msg, _) => .snap h msg
      | (1, _, id, d, _) => .changeNew id d
      | (2, _, id, n, _) => .wtMake id n
      | (3, _, id, n, _) => .wtDrop id n
      | (4, _, id, _, _, s, s', v, v', _) => .changeTransition id s s' v v'
      | (_, _, _, _, _, _, _, _, _, n) => .undo n)
    (by rintro (_ | _ | _ | _ | _ | _) <;> rfl)

/-- The encoding of a log record. -/
def op : Wire (Op PlainHash) :=
  (Wire.nat.pair (Wire.nat.pair (Wire.string.pair (opKind.pair ((Wire.list refSnapshot).pair
    (Wire.list refSnapshot)))))).map
    (fun o => (o.id, o.tsNs, o.actor, o.kind, o.before, o.after))
    (fun p => ⟨p.1, p.2.1, p.2.2.1, p.2.2.2.1, p.2.2.2.2.1, p.2.2.2.2.2⟩)
    (fun _ => rfl)

end Plain

/-- The codec of log records in the plain format. -/
def plainOpCodec : OpCodec PlainHash where
  intoWriter o := .ok (Plain.op.encodeBytes o)
  fromReader bs := (Plain.codec Plain.op).fromReader bs

/-- The plain codec decodes what it encoded. -/
theorem plainOpCodec_lawful : plainOpCodec.Lawful := by
  intro o bytes h
  obtain rfl := Except.ok.inj h
  exact Plain.codec_lawful Plain.op o

end Tig
