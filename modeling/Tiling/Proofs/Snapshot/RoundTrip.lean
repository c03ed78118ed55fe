import Mathlib.Data.List.Nodup
import Tiling.Proofs.Json.Value
import Tiling.Proofs.Text.Utf8
import Tiling.Snapshot.Decode
import Tiling.Snapshot.Encode
import Tiling.Successor
/-!
# Snapshots read back

A snapshot read back from its own file is the same snapshot, exactly when its indexes are words
of 64 bits: the only numbers that the writer does not bound and the reader does.  Each structure
of the file has the condition for its own indexes.
-/

namespace Tiling

/-! ## Indexes

Positions and node indexes are words of 64 bits in the file. -/

@[mk_iff]
structure Node.Fits (n : Node) : Prop where
  parent : ∀ i ∈ n.parent, i.index < UInt64.size
  firstChild : ∀ i ∈ n.firstChild, i.index < UInt64.size
  secondChild : ∀ i ∈ n.secondChild, i.index < UInt64.size

@[mk_iff]
structure Tree.Fits (t : Tree) : Prop where
  nodes : ∀ o ∈ t.nodes.cells.toList, ∀ node ∈ o, node.Fits
  free : ∀ i ∈ t.nodes.free, i < UInt64.size

@[mk_iff]
structure Desktop.Fits (d : Desktop) : Prop where
  root : ∀ n ∈ d.root, n.index < UInt64.size
  focus : ∀ n ∈ d.focus, n.index < UInt64.size

@[mk_iff]
structure Monitor.Fits (m : Monitor) : Prop where
  desktops : ∀ d ∈ m.desktops, d.Fits
  active : ∀ i ∈ m.active, i < UInt64.size

/-- Every position and every node index of the snapshot is a word of 64 bits. -/
@[mk_iff]
structure Snapshot.Fits (s : Snapshot) : Prop where
  monitors : ∀ m ∈ s.monitors, m.Fits
  focusedMonitor : s.focusedMonitor < UInt64.size
  tree : s.tree.Fits
  stack : ∀ n ∈ s.stack, n.index < UInt64.size

namespace Snapshot

open Json (Value)

/-! ## Plain values -/

theorem decodeNat_encodeNat {bound n : Nat} :
    decodeNat bound (encodeNat n) = some n ↔ n ≤ bound := by
  have hdecode : decodeNat bound (encodeNat n) =
      (Numeral.readNat 10 bound (toString n).toList).toOption := rfl
  rw [hdecode]
  constructor
  · intro h
    cases hread : Numeral.readNat 10 bound (toString n).toList with
    | error fault =>
      rw [hread] at h
      cases h
    | ok m =>
      rw [hread] at h
      obtain rfl : m = n := Option.some.inj h
      exact Numeral.readNat_le hread
  · intro h
    rw [Numeral.readNat_toString h]
    rfl

@[simp] theorem decodeWord_encodeWord (w : UInt32) : decodeWord (encodeWord w) = some w := by
  have hw : w.toNat ≤ UInt32.size - 1 := by
    have hlt := w.toNat_lt
    have hsize : UInt32.size = 2 ^ 32 := rfl
    omega
  rw [decodeWord, encodeWord, decodeNat_encodeNat.2 hw, Option.map_some, UInt32.ofNat_toNat]

@[simp] theorem decodeInt32_encodeInt (x : Int32) : decodeInt32 (encodeInt x.toInt) = some x := by
  show (if Numeral.decimal x.toInt = "-0" then none else _) = _
  rw [if_neg (Numeral.decimal_ne_negativeZero _), Numeral.int32?_decimal]

@[simp] theorem decodeIndex_encodeNat {n : Nat} :
    decodeIndex (encodeNat n) = some n ↔ n < UInt64.size := by
  have hpos : 0 < UInt64.size := by decide
  rw [decodeIndex, decodeNat_encodeNat]
  omega

@[simp] theorem decodeNodeId_encodeNodeId {n : NodeId} :
    decodeNodeId (encodeNodeId n) = some n ↔ n.index < UInt64.size := by
  rw [decodeNodeId, encodeNodeId, Option.map_eq_some_iff]
  exact ⟨fun ⟨i, hi, hn⟩ => decodeIndex_encodeNat.1 (by rw [hi, ← hn]),
    fun h => ⟨n.index, decodeIndex_encodeNat.2 h, rfl⟩⟩

@[simp] theorem decodeBool_bool (b : Bool) : decodeBool (.bool b) = some b := rfl

@[simp] theorem decodeText_string (text : String) : decodeText (.string text) = some text := rfl

@[simp] theorem decodeChoice_string {α : Type} (ofWord? : String → Option α) (word : String) :
    decodeChoice ofWord? (.string word) = ofWord? word := rfl

/-! ## Options and lists -/

@[simp] theorem optional_encodeOption {α : Type} {encode : α → Value} {decode : Value → Option α}
    (hnull : ∀ a, encode a ≠ .null) {o : Option α} :
    optional decode (some (encodeOption encode o)) = some o ↔
      ∀ a ∈ o, decode (encode a) = some a := by
  cases o with
  | none => simp [optional, encodeOption]
  | some a =>
    have hoptional : optional decode (some (encode a)) = (decode (encode a)).map some := by
      have hsome := hnull a
      cases hvalue : encode a <;> first | rfl | exact absurd hvalue hsome
    rw [encodeOption, hoptional]
    simp

theorem mapM_map_eq_some {α : Type} {encode : α → Value} {decode : Value → Option α}
    {items : List α} :
    (items.map encode).mapM decode = some items ↔ ∀ a ∈ items, decode (encode a) = some a := by
  induction items with
  | nil => simp
  | cons a items ih =>
    rw [List.map_cons, List.mapM_cons, List.forall_mem_cons, ← ih]
    simp [Option.bind_eq_some_iff]

@[simp] theorem decodeList_encodeList {α : Type} {encode : α → Value} {decode : Value → Option α}
    {items : List α} :
    decodeList decode (encodeList encode items) = some items ↔
      ∀ a ∈ items, decode (encode a) = some a :=
  mapM_map_eq_some

/-! ## Structures -/

@[simp] theorem encodeNat_ne_null (n : Nat) : encodeNat n ≠ .null := nofun

@[simp] theorem encodeNodeId_ne_null (n : NodeId) : encodeNodeId n ≠ .null := nofun

@[simp] theorem encodeWord_ne_null (w : UInt32) : encodeWord w ≠ .null := nofun

@[simp] theorem encodeClient_ne_null (c : Client) : encodeClient c ≠ .null := nofun

@[simp] theorem encodePresel_ne_null (p : Presel) : encodePresel p ≠ .null := nofun

@[simp] theorem encodeNode_ne_null (n : Node) : encodeNode n ≠ .null := nofun

@[simp] theorem decodeRect_encodeRect (r : Rect) : decodeRect (encodeRect r) = some r := by
  simp [decodeRect, encodeRect, fields?, List.lookup_cons]

@[simp] theorem decodeDesktop_encodeDesktop {d : Desktop} :
    decodeDesktop (encodeDesktop d) = some d ↔ d.Fits := by
  cases d
  simp [decodeDesktop, encodeDesktop, fields?, List.lookup_cons, Option.bind_eq_some_iff,
    Layout.ofWord?_word, Desktop.fits_iff]

@[simp] theorem decodeMonitor_encodeMonitor {m : Monitor} :
    decodeMonitor (encodeMonitor m) = some m ↔ m.Fits := by
  cases m
  simp [decodeMonitor, encodeMonitor, fields?, List.lookup_cons, Option.bind_eq_some_iff,
    Monitor.fits_iff]

@[simp] theorem decodeClient_encodeClient (c : Client) :
    decodeClient (encodeClient c) = some c := by
  simp [decodeClient, encodeClient, fields?, List.lookup_cons, ClientState.ofWord?_word,
    Layer.ofWord?_word]

@[simp] theorem decodePresel_encodePresel (p : Presel) :
    decodePresel (encodePresel p) = some p := by
  cases p
  simp [decodePresel, encodePresel, fields?, List.lookup_cons, Direction.ofWord?_word,
    Option.bind_eq_some_iff]

@[simp] theorem decodeNode_encodeNode {n : Node} :
    decodeNode (encodeNode n) = some n ↔ n.Fits := by
  obtain ⟨parent, first, second, rect, client, presel, flags⟩ := n
  cases flags
  simp [decodeNode, encodeNode, fields?, List.lookup_cons, Option.bind_eq_some_iff, Node.fits_iff]

@[simp] theorem decodeRecord_encodeRecord (r : SubscriberRecord) :
    decodeRecord (encodeRecord r) = some r := by
  cases r
  simp [decodeRecord, encodeRecord, fields?, List.lookup_cons, Option.bind_eq_some_iff]

@[simp] theorem decodeTree_encodeTree {t : Tree} : decodeTree (encodeTree t) = some t ↔ t.Fits := by
  obtain ⟨⟨cells, free⟩⟩ := t
  have hcells (l : List (Option Node)) : l.toArray = cells ↔ l = cells.toList :=
    ⟨fun h => by rw [← h], fun h => by rw [h]⟩
  simp [decodeTree, encodeTree, fields?, List.lookup_cons, Option.bind_eq_some_iff, Tree.fits_iff,
    List.reverse_eq_iff, hcells]

/-- A snapshot is decoded from its document exactly if its indexes fit. -/
theorem decode_encode {s : Snapshot} : decode s.encode = some s ↔ s.Fits := by
  cases s
  simp [decode, encode, fields?, List.lookup_cons, Option.bind_eq_some_iff, Snapshot.fits_iff]

/-! ## Documents -/

@[simp] theorem legible_encodeNat (n : Nat) : (encodeNat n).Legible :=
  .number (Json.isNumeral_toString n)

@[simp] theorem legible_encodeInt (n : Int) : (encodeInt n).Legible :=
  .number (Json.isNumeral_decimal n)

@[simp] theorem legible_encodeNodeId (n : NodeId) : (encodeNodeId n).Legible :=
  legible_encodeNat n.index

@[simp] theorem legible_encodeWord (w : UInt32) : (encodeWord w).Legible :=
  legible_encodeNat w.toNat

@[simp] theorem legible_bool (b : Bool) : (Value.bool b).Legible := .bool b

@[simp] theorem legible_string (text : String) : (Value.string text).Legible := .string text

@[simp] theorem legible_encodeOption {α : Type} {encode : α → Value} (h : ∀ a, (encode a).Legible)
    (o : Option α) : (encodeOption encode o).Legible := by
  cases o with
  | none => exact .null
  | some a => exact h a

@[simp] theorem legible_encodeList {α : Type} {encode : α → Value} (h : ∀ a, (encode a).Legible)
    (items : List α) : (encodeList encode items).Legible :=
  .array fun v hv => by
    obtain ⟨a, -, rfl⟩ := List.mem_map.1 hv
    exact h a

@[simp] theorem legible_encodeRect (r : Rect) : (encodeRect r).Legible := .object (by simp)

@[simp] theorem legible_encodeDesktop (d : Desktop) : (encodeDesktop d).Legible := .object (by simp)

@[simp] theorem legible_encodeMonitor (m : Monitor) : (encodeMonitor m).Legible := .object (by simp)

@[simp] theorem legible_encodeClient (c : Client) : (encodeClient c).Legible := .object (by simp)

@[simp] theorem legible_encodePresel (p : Presel) : (encodePresel p).Legible := .object (by simp)

@[simp] theorem legible_encodeNode (n : Node) : (encodeNode n).Legible := .object (by simp)

@[simp] theorem legible_encodeTree (t : Tree) : (encodeTree t).Legible := .object (by simp)

@[simp] theorem legible_encodeRecord (r : SubscriberRecord) : (encodeRecord r).Legible :=
  .object (by simp)

theorem legible_encode (s : Snapshot) : s.encode.Legible := .object (by simp)

/-- The text of a snapshot is read as its document. -/
theorem ofText?_render (s : Snapshot) : ofText? s.render = decode s.encode := by
  rw [ofText?, render, Json.Value.ofText?_render s.legible_encode, Option.bind_some]

end Snapshot

/-! ## Files -/

/-- The file that a snapshot was written to gives the same snapshot back, whatever is in it; only
positions and node indexes have to be words of 64 bits. -/
theorem Snapshot.load_saved (s : Snapshot) (path : String) :
    Snapshot.load path (some (Text.encode s.render)) = .ok s ↔ s.Fits := by
  rw [Snapshot.load, Option.bind_some, Text.decode?_encode]
  dsimp only
  rw [Snapshot.ofText?_render, ← Snapshot.decode_encode]
  cases hdecode : Snapshot.decode s.encode <;> simp

end Tiling
