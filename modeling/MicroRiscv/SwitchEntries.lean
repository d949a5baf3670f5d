import MicroRiscv.SwitchServer

/-!
# The entries of a tick request

What one entry of the body leads to depends on the entry alone (`decodeEntry`). Three
kinds are told apart by the keys and values of the entry, in the order in which the
handler looks at them:

* `WellFormed`: it is applied, and brings a frame when it `CarriesFrame`;
* `LacksKey`: a lookup meets an object without the key, and its assertion fails;
* all others: a lookup or a conversion throws.

`decodeEntry_ok_iff`, `decodeEntry_some_iff` and `decodeEntry_aborted_iff` say so.
-/

namespace MicroRiscv

namespace SwitchServer

open Fallible (bind_eq_ok_iff bind_eq_error_iff)

variable {F : Type} (c : Codec F)

/-! ## 1. Kinds of entries -/

/-- The key is present and its value converts. -/
def Fits {α : Type} (key : String) (get : Json F → Option α) (members : List (String × Json F)) :
    Prop :=
  ∃ j a, members.lookup key = some j ∧ get j = some a

/-- The VLAN of an entry: null or a number. -/
def VLANFits (members : List (String × Json F)) : Prop :=
  ∃ j, members.lookup "vlan" = some j ∧ (j.isNull = true ∨ ∃ v, c.getVLANId j = some v)

/-- The members of a frame. -/
structure FrameFits (fs : List (String × Json F)) : Prop where
  target : Fits "target" c.getMACAddress fs
  source : Fits "source" c.getMACAddress fs
  etherType : Fits "etherType" c.getEtherType fs
  data : Fits "data" c.getData fs
  checksumOK : Fits "checksumOK" Json.getBool fs

/-- A key of a frame is missing, and the members in front of it are in order. -/
inductive FrameLacksKey (fs : List (String × Json F)) : Prop
  | target (h : fs.lookup "target" = none)
  | source (h1 : Fits "target" c.getMACAddress fs) (h : fs.lookup "source" = none)
  | etherType (h1 : Fits "target" c.getMACAddress fs) (h2 : Fits "source" c.getMACAddress fs)
      (h : fs.lookup "etherType" = none)
  | data (h1 : Fits "target" c.getMACAddress fs) (h2 : Fits "source" c.getMACAddress fs)
      (h3 : Fits "etherType" c.getEtherType fs) (h : fs.lookup "data" = none)
  | checksumOK (h1 : Fits "target" c.getMACAddress fs) (h2 : Fits "source" c.getMACAddress fs)
      (h3 : Fits "etherType" c.getEtherType fs) (h4 : Fits "data" c.getData fs)
      (h : fs.lookup "checksumOK" = none)

/-- An entry that the handler applies. -/
inductive WellFormed : Json F → Prop
  | null : WellFormed .null
  | idle {members : List (String × Json F)} (hvlan : VLANFits c members)
      (hframe : members.lookup "frame" = some .null) : WellFormed (.object members)
  | frame {members fs : List (String × Json F)} (hvlan : VLANFits c members)
      (hframe : members.lookup "frame" = some (.object fs)) (hfits : FrameFits c fs) :
      WellFormed (.object members)

/-- An entry whose first defect, in the order of the lookups, is a missing key. -/
inductive LacksKey : Json F → Prop
  | vlan {members : List (String × Json F)} (h : members.lookup "vlan" = none) :
      LacksKey (.object members)
  | frame {members : List (String × Json F)} (hvlan : VLANFits c members)
      (h : members.lookup "frame" = none) : LacksKey (.object members)
  | inFrame {members fs : List (String × Json F)} (hvlan : VLANFits c members)
      (hframe : members.lookup "frame" = some (.object fs)) (h : FrameLacksKey c fs) :
      LacksKey (.object members)

/-- The entry has a frame. -/
def CarriesFrame (content : Json F) : Prop :=
  ∃ members j, content = .object members ∧ members.lookup "frame" = some j ∧ j.isNull = false

/-! ## 2. Decoding -/

/-- Whether the VLAN of an entry is accepted. -/
def decodeVLAN (content : Json F) : Except Signal Unit := do
  let jsonVLAN ← content.index "vlan"
  if jsonVLAN.isNull then pure ()
  else do
    let _ ← orThrow (c.getVLANId jsonVLAN)
    pure ()

/-- The frame that an entry brings. -/
def decodeOptFrame (content : Json F) : Except Signal (Option EthernetFrame) := do
  let jsonFrame ← content.index "frame"
  if jsonFrame.isNull then pure none
  else do
    let frame ← decodeFrame c jsonFrame
    pure (some frame)

/-- What an entry brings, if it is applied. -/
def decodeEntry (content : Json F) : Except Signal (Option EthernetFrame) :=
  if content.isNull then pure none
  else do
    decodeVLAN c content
    decodeOptFrame c content

theorem orThrow_eq_ok_iff {α : Type} {o : Option α} {a : α} : orThrow o = .ok a ↔ o = some a := by
  cases o <;> simp [orThrow]

theorem orThrow_ne_aborted {α : Type} {o : Option α} {a : Assertion} :
    orThrow o ≠ .error (.aborted a) := by
  cases o <;> simp [orThrow]

section Field

variable {α : Type} {key : String} {get : Json F → Option α} {j : Json F} {a : α}

theorem field_eq_ok_iff : field key get j = .ok a ↔
    ∃ members x, j = .object members ∧ members.lookup key = some x ∧ get x = some a := by
  rw [field, bind_eq_ok_iff]
  simp only [Json.index_eq_ok_iff, orThrow_eq_ok_iff]
  constructor
  · rintro ⟨x, ⟨members, hj, hx⟩, hget⟩
    exact ⟨members, x, hj, hx, hget⟩
  · rintro ⟨members, x, hj, hx, hget⟩
    exact ⟨x, ⟨members, hj, hx⟩, hget⟩

theorem field_eq_aborted_iff {s : Assertion} : field key get j = .error (.aborted s) ↔
    s = .keyExists ∧ ∃ members, j = .object members ∧ members.lookup key = none := by
  rw [field, bind_eq_error_iff, Json.index_eq_aborted_iff]
  constructor
  · rintro (h | ⟨x, _, hthrow⟩)
    · exact h
    · exact absurd hthrow orThrow_ne_aborted
  · exact .inl

/-- A field of an object. -/
theorem exists_field_iff {members : List (String × Json F)} :
    (∃ a, field key get (.object members) = .ok a) ↔ Fits key get members := by
  simp only [field_eq_ok_iff, Json.object.injEq]
  constructor
  · rintro ⟨a, _, x, rfl, hx, hget⟩
    exact ⟨x, a, hx, hget⟩
  · rintro ⟨x, a, hx, hget⟩
    exact ⟨a, members, x, rfl, hx, hget⟩

end Field

variable {c} {j content : Json F} {members fs : List (String × Json F)} {a : Assertion}

theorem decodeFrame_ok_iff :
    (∃ frame, decodeFrame c j = .ok frame) ↔ ∃ fs, j = .object fs ∧ FrameFits c fs := by
  simp only [decodeFrame, bind_eq_ok_iff]
  constructor
  · rintro ⟨frame, dest, h1, src, h2, type, h3, data, h4, ok, h5, -⟩
    obtain ⟨fs, x, rfl, -, -⟩ := field_eq_ok_iff.mp h1
    exact ⟨fs, rfl, exists_field_iff.mp ⟨_, h1⟩, exists_field_iff.mp ⟨_, h2⟩,
      exists_field_iff.mp ⟨_, h3⟩, exists_field_iff.mp ⟨_, h4⟩, exists_field_iff.mp ⟨_, h5⟩⟩
  · rintro ⟨fs, rfl, hfits⟩
    obtain ⟨dest, h1⟩ := exists_field_iff.mpr hfits.target
    obtain ⟨src, h2⟩ := exists_field_iff.mpr hfits.source
    obtain ⟨type, h3⟩ := exists_field_iff.mpr hfits.etherType
    obtain ⟨data, h4⟩ := exists_field_iff.mpr hfits.data
    obtain ⟨ok, h5⟩ := exists_field_iff.mpr hfits.checksumOK
    exact ⟨_, dest, h1, src, h2, type, h3, data, h4, ok, h5, rfl⟩

theorem decodeFrame_aborted_iff : decodeFrame c j = .error (.aborted a) ↔
    a = .keyExists ∧ ∃ fs, j = .object fs ∧ FrameLacksKey c fs := by
  simp only [decodeFrame, bind_eq_error_iff]
  constructor
  · -- the fields in front of the one whose key is missing have been read
    rintro (h | ⟨dest, h1, h | ⟨src, h2, h | ⟨type, h3, h | ⟨data, h4, h | ⟨ok, -, h⟩⟩⟩⟩⟩)
    · obtain ⟨rfl, fs, rfl, hkey⟩ := field_eq_aborted_iff.mp h
      exact ⟨rfl, fs, rfl, .target hkey⟩
    · obtain ⟨rfl, fs, rfl, hkey⟩ := field_eq_aborted_iff.mp h
      exact ⟨rfl, fs, rfl, .source (exists_field_iff.mp ⟨_, h1⟩) hkey⟩
    · obtain ⟨rfl, fs, rfl, hkey⟩ := field_eq_aborted_iff.mp h
      exact ⟨rfl, fs, rfl, .etherType (exists_field_iff.mp ⟨_, h1⟩)
        (exists_field_iff.mp ⟨_, h2⟩) hkey⟩
    · obtain ⟨rfl, fs, rfl, hkey⟩ := field_eq_aborted_iff.mp h
      exact ⟨rfl, fs, rfl, .data (exists_field_iff.mp ⟨_, h1⟩) (exists_field_iff.mp ⟨_, h2⟩)
        (exists_field_iff.mp ⟨_, h3⟩) hkey⟩
    · obtain ⟨rfl, fs, rfl, hkey⟩ := field_eq_aborted_iff.mp h
      exact ⟨rfl, fs, rfl, .checksumOK (exists_field_iff.mp ⟨_, h1⟩)
        (exists_field_iff.mp ⟨_, h2⟩) (exists_field_iff.mp ⟨_, h3⟩)
        (exists_field_iff.mp ⟨_, h4⟩) hkey⟩
    · cases h
  · rintro ⟨rfl, fs, rfl, hlacks⟩
    have hmissing : ∀ {α : Type} {key : String} {get : Json F → Option α},
        fs.lookup key = none → field key get (.object fs) = .error (.aborted .keyExists) :=
      fun h => field_eq_aborted_iff.mpr ⟨rfl, fs, rfl, h⟩
    cases hlacks with
    | target h => exact .inl (hmissing h)
    | source h1 h =>
      obtain ⟨dest, h1⟩ := exists_field_iff.mpr h1
      exact .inr ⟨dest, h1, .inl (hmissing h)⟩
    | etherType h1 h2 h =>
      obtain ⟨dest, h1⟩ := exists_field_iff.mpr h1
      obtain ⟨src, h2⟩ := exists_field_iff.mpr h2
      exact .inr ⟨dest, h1, .inr ⟨src, h2, .inl (hmissing h)⟩⟩
    | data h1 h2 h3 h =>
      obtain ⟨dest, h1⟩ := exists_field_iff.mpr h1
      obtain ⟨src, h2⟩ := exists_field_iff.mpr h2
      obtain ⟨type, h3⟩ := exists_field_iff.mpr h3
      exact .inr ⟨dest, h1, .inr ⟨src, h2, .inr ⟨type, h3, .inl (hmissing h)⟩⟩⟩
    | checksumOK h1 h2 h3 h4 h =>
      obtain ⟨dest, h1⟩ := exists_field_iff.mpr h1
      obtain ⟨src, h2⟩ := exists_field_iff.mpr h2
      obtain ⟨type, h3⟩ := exists_field_iff.mpr h3
      obtain ⟨data, h4⟩ := exists_field_iff.mpr h4
      exact .inr ⟨dest, h1, .inr ⟨src, h2, .inr ⟨type, h3, .inr ⟨data, h4, .inl (hmissing h)⟩⟩⟩⟩

theorem isNull_iff : j.isNull = true ↔ j = .null := by
  cases j <;> simp [Json.isNull]

theorem decodeVLAN_ok_iff :
    decodeVLAN c content = .ok () ↔ ∃ members, content = .object members ∧ VLANFits c members := by
  rw [decodeVLAN, bind_eq_ok_iff]
  simp only [Json.index_eq_ok_iff]
  constructor
  · rintro ⟨x, ⟨members, rfl, hx⟩, hrest⟩
    refine ⟨members, rfl, x, hx, ?_⟩
    split at hrest
    · next hnull => exact .inl hnull
    · obtain ⟨v, hv, -⟩ := bind_eq_ok_iff.mp hrest
      exact .inr ⟨v, orThrow_eq_ok_iff.mp hv⟩
  · rintro ⟨members, rfl, x, hx, hfits⟩
    refine ⟨x, ⟨members, rfl, hx⟩, ?_⟩
    split
    · rfl
    · next hnull =>
      obtain ⟨v, hv⟩ := hfits.resolve_left hnull
      exact bind_eq_ok_iff.mpr ⟨v, orThrow_eq_ok_iff.mpr hv, rfl⟩

theorem decodeVLAN_aborted_iff : decodeVLAN c content = .error (.aborted a) ↔
    a = .keyExists ∧ ∃ members, content = .object members ∧ members.lookup "vlan" = none := by
  rw [decodeVLAN, bind_eq_error_iff, Json.index_eq_aborted_iff]
  constructor
  · rintro (h | ⟨x, -, hrest⟩)
    · exact h
    · split at hrest
      · cases hrest
      · rcases bind_eq_error_iff.mp hrest with hthrow | ⟨v, -, hv⟩
        · exact absurd hthrow orThrow_ne_aborted
        · cases hv
  · exact .inl

/-- An entry without a frame. -/
theorem decodeOptFrame_none_iff : decodeOptFrame c (.object members) = .ok none ↔
    members.lookup "frame" = some .null := by
  rw [decodeOptFrame, bind_eq_ok_iff]
  simp only [Json.index_eq_ok_iff, Json.object.injEq]
  constructor
  · rintro ⟨x, ⟨_, rfl, hx⟩, hrest⟩
    split at hrest
    · next hnull => rw [hx, isNull_iff.mp hnull]
    · obtain ⟨frame, -, hframe⟩ := bind_eq_ok_iff.mp hrest
      cases hframe
  · exact fun h => ⟨.null, ⟨members, rfl, h⟩, rfl⟩

/-- An entry with one. -/
theorem decodeOptFrame_some_iff :
    (∃ frame, decodeOptFrame c (.object members) = .ok (some frame)) ↔
      ∃ fs, members.lookup "frame" = some (.object fs) ∧ FrameFits c fs := by
  simp only [decodeOptFrame, bind_eq_ok_iff, Json.index_eq_ok_iff, Json.object.injEq]
  constructor
  · rintro ⟨frame, x, ⟨_, rfl, hx⟩, hrest⟩
    split at hrest
    · cases hrest
    · obtain ⟨frame', hframe, -⟩ := bind_eq_ok_iff.mp hrest
      obtain ⟨fs, rfl, hfits⟩ := decodeFrame_ok_iff.mp ⟨frame', hframe⟩
      exact ⟨fs, hx, hfits⟩
  · rintro ⟨fs, hx, hfits⟩
    obtain ⟨frame, hframe⟩ := decodeFrame_ok_iff.mpr ⟨fs, rfl, hfits⟩
    exact ⟨frame, .object fs, ⟨members, rfl, hx⟩, bind_eq_ok_iff.mpr ⟨frame, hframe, rfl⟩⟩

theorem decodeOptFrame_aborted_iff :
    decodeOptFrame c (.object members) = .error (.aborted a) ↔ a = .keyExists ∧
      (members.lookup "frame" = none ∨
        ∃ fs, members.lookup "frame" = some (.object fs) ∧ FrameLacksKey c fs) := by
  rw [decodeOptFrame, bind_eq_error_iff, Json.index_eq_aborted_iff]
  simp only [Json.index_eq_ok_iff, Json.object.injEq]
  constructor
  · rintro (⟨rfl, _, rfl, h⟩ | ⟨x, ⟨_, rfl, hx⟩, hrest⟩)
    · exact ⟨rfl, .inl h⟩
    · split at hrest
      · cases hrest
      · rcases bind_eq_error_iff.mp hrest with hframe | ⟨frame, -, hframe⟩
        · obtain ⟨rfl, fs, rfl, hlacks⟩ := decodeFrame_aborted_iff.mp hframe
          exact ⟨rfl, .inr ⟨fs, hx, hlacks⟩⟩
        · cases hframe
  · rintro ⟨rfl, h | ⟨fs, hx, hlacks⟩⟩
    · exact .inl ⟨rfl, members, rfl, h⟩
    · have hframe := decodeFrame_aborted_iff.mpr ⟨rfl, fs, rfl, hlacks⟩
      exact .inr ⟨.object fs, ⟨members, rfl, hx⟩, bind_eq_error_iff.mpr (.inl hframe)⟩

/-- The entries that are applied. -/
theorem decodeEntry_ok_iff : (∃ o, decodeEntry c content = .ok o) ↔ WellFormed c content := by
  constructor
  · rintro ⟨o, ho⟩
    unfold decodeEntry at ho
    split at ho
    · next hnull =>
      rw [isNull_iff.mp hnull]
      exact .null
    · obtain ⟨⟨⟩, hvlan, hframe⟩ := bind_eq_ok_iff.mp ho
      obtain ⟨members, rfl, hfits⟩ := decodeVLAN_ok_iff.mp hvlan
      cases o with
      | none => exact .idle hfits (decodeOptFrame_none_iff.mp hframe)
      | some frame =>
        obtain ⟨fs, hx, hframe⟩ := decodeOptFrame_some_iff.mp ⟨frame, hframe⟩
        exact .frame hfits hx hframe
  · intro h
    cases h with
    | null => exact ⟨none, rfl⟩
    | idle hvlan hframe =>
      exact ⟨none, bind_eq_ok_iff.mpr
        ⟨(), decodeVLAN_ok_iff.mpr ⟨_, rfl, hvlan⟩, decodeOptFrame_none_iff.mpr hframe⟩⟩
    | frame hvlan hframe hfits =>
      obtain ⟨frame, hsome⟩ := decodeOptFrame_some_iff.mpr ⟨_, hframe, hfits⟩
      exact ⟨some frame, bind_eq_ok_iff.mpr
        ⟨(), decodeVLAN_ok_iff.mpr ⟨_, rfl, hvlan⟩, hsome⟩⟩

/-- The entries that bring a frame. -/
theorem decodeEntry_some_iff : (∃ frame, decodeEntry c content = .ok (some frame)) ↔
    WellFormed c content ∧ CarriesFrame content := by
  constructor
  · rintro ⟨frame, ho⟩
    refine ⟨decodeEntry_ok_iff.mp ⟨_, ho⟩, ?_⟩
    unfold decodeEntry at ho
    split at ho
    · cases ho
    · obtain ⟨⟨⟩, hvlan, hframe⟩ := bind_eq_ok_iff.mp ho
      obtain ⟨members, rfl, -⟩ := decodeVLAN_ok_iff.mp hvlan
      obtain ⟨fs, hx, -⟩ := decodeOptFrame_some_iff.mp ⟨frame, hframe⟩
      exact ⟨members, .object fs, rfl, hx, rfl⟩
  · rintro ⟨hwf, members, x, rfl, hx, hnull⟩
    cases hwf with
    | idle hvlan hframe =>
      rw [hframe] at hx
      cases hx
      cases hnull
    | frame hvlan hframe hfits =>
      obtain ⟨frame, hsome⟩ := decodeOptFrame_some_iff.mpr ⟨_, hframe, hfits⟩
      exact ⟨frame, bind_eq_ok_iff.mpr
        ⟨(), decodeVLAN_ok_iff.mpr ⟨_, rfl, hvlan⟩, hsome⟩⟩

/-- The entries whose decoding fails an assertion. -/
theorem decodeEntry_aborted_iff : decodeEntry c content = .error (.aborted a) ↔
    a = .keyExists ∧ LacksKey c content := by
  constructor
  · intro ho
    unfold decodeEntry at ho
    split at ho
    · cases ho
    · rcases bind_eq_error_iff.mp ho with hvlan | ⟨⟨⟩, hvlan, hframe⟩
      · obtain ⟨rfl, members, rfl, h⟩ := decodeVLAN_aborted_iff.mp hvlan
        exact ⟨rfl, .vlan h⟩
      · obtain ⟨members, rfl, hfits⟩ := decodeVLAN_ok_iff.mp hvlan
        obtain ⟨rfl, h | ⟨fs, hx, h⟩⟩ := decodeOptFrame_aborted_iff.mp hframe
        · exact ⟨rfl, .frame hfits h⟩
        · exact ⟨rfl, .inFrame hfits hx h⟩
  · rintro ⟨rfl, h⟩
    cases h with
    | vlan h =>
      exact bind_eq_error_iff.mpr (.inl (decodeVLAN_aborted_iff.mpr ⟨rfl, _, rfl, h⟩))
    | frame hvlan h =>
      exact bind_eq_error_iff.mpr (.inr ⟨(), decodeVLAN_ok_iff.mpr ⟨_, rfl, hvlan⟩,
        decodeOptFrame_aborted_iff.mpr ⟨rfl, .inl h⟩⟩)
    | inFrame hvlan hframe h =>
      exact bind_eq_error_iff.mpr (.inr ⟨(), decodeVLAN_ok_iff.mpr ⟨_, rfl, hvlan⟩,
        decodeOptFrame_aborted_iff.mpr ⟨rfl, .inr ⟨_, hframe, h⟩⟩⟩)

end SwitchServer

end MicroRiscv
