import FileEngine.Go.Json
import FileEngine.Go.Time
import FileEngine.Queue.Redisq

/-!
# Payloads as JSON

What `json.Marshal` makes of a `TaskPayload`, and what `json.Unmarshal` leaves in an empty one.
Reading goes on after a value of the wrong type and reports it at the end, so an error and a
payload can come together; `Pop` of `redisq` looks at the payload only.

A member is matched to a field by its exact name, or else by its folded name. How `unicode`
folds the runes beyond ASCII is a parameter.

`unmarshal_marshal`: a payload comes back with all that is not valid UTF-8 replaced.
-/

namespace FileEngine.Queue

open Go

/-! ## Writing -/

/-- `json.Marshal`. The keys of the map are among the given ones. -/
def marshalPayload (keys : Finset Str) (p : TaskPayload) : Str :=
  Json.objectText [(str "id", Json.appendString p.id), (str "type", Json.appendString p.type),
    (str "params", Json.mapText keys p.params Json.appendString)]

/-! ## Reading -/

/-- `foldName`. -/
def foldName (foldRune : Nat → Nat) (name : Str) : Str :=
  (runes name).flatMap fun r =>
    if r < 0x80 then [UInt8.ofNat (if 97 ≤ r ∧ r ≤ 122 then r - 32 else r)]
    else encodeRune (foldRune r)

inductive Field
  | id
  | type
  | params

def field (foldRune : Nat → Nat) (key : Str) : Option Field :=
  match [(str "id", Field.id), (str "type", .type), (str "params", .params)].lookup key with
  | some f => some f
  | none => [(str "ID", Field.id), (str "TYPE", .type), (str "PARAMS", .params)].lookup
      (foldName foldRune key)

/-- What a value leaves in an empty string. -/
def stringOf : Json.Value → Str
  | .str s => s
  | _ => []

/-- The value can be stored in a string; `null` leaves it as it is. -/
def fits : Json.Value → Bool
  | .str _ | .null => true
  | _ => false

/-- A value is stored in a field. The flag says that its type was right. -/
def storeField (p : TaskPayload) : Field → Json.Value → TaskPayload × Bool
  | .id, .null | .type, .null => (p, true)
  | .id, .str s => ({ p with id := s }, true)
  | .type, .str s => ({ p with type := s }, true)
  | .params, .null => ({ p with params := fun _ => none }, true)
  | .params, .obj members =>
      -- a key with a value of the wrong type is set to the empty string
      ({ p with params := Json.store members stringOf p.params }, members.all fun m => fits m.2)
  | _, _ => (p, false)

def storeMember (foldRune : Nat → Nat) (acc : TaskPayload × Bool) (m : Str × Json.Value) :
    TaskPayload × Bool :=
  match field foldRune m.1 with
  | none => acc
  | some f =>
      let (p, ok) := storeField acc.1 f m.2
      (p, acc.2 && ok)

def emptyPayload : TaskPayload := ⟨[], [], fun _ => none⟩

/-- `json.Unmarshal` into an empty payload: what it leaves there, and whether it returns `nil`.
A text that is not valid JSON is not looked at further. -/
def unmarshalPayload (foldRune : Nat → Nat) (raw : Str) : TaskPayload × Bool :=
  match Json.parse raw with
  | none => (emptyPayload, false)
  | some .null => (emptyPayload, true)
  | some (.obj members) => members.foldl (storeMember foldRune) (emptyPayload, true)
  | some _ => (emptyPayload, false)

/-! ## The round trip -/

/-- The payload with all that is not valid UTF-8 replaced. -/
def TaskPayload.repaired (p : TaskPayload) : TaskPayload :=
  ⟨repair p.id, repair p.type, fun k => (p.params k).map repair⟩

theorem parse_marshalPayload (keys : Finset Str) (p : TaskPayload) :
    Json.parse (marshalPayload keys p) = some (.obj [(str "id", .str (repair p.id)),
      (str "type", .str (repair p.type)),
      (str "params", .obj ((Json.entries keys p.params).map fun (k, v) =>
        (repair k, .str (repair v))))]) := by
  let members : List (Str × Str × Json.Value) :=
    [(str "id", Json.appendString p.id, .str (repair p.id)),
      (str "type", Json.appendString p.type, .str (repair p.type)),
      (str "params", Json.mapText keys p.params Json.appendString,
        .obj ((Json.entries keys p.params).map fun (k, v) => (repair k, .str (repair v))))]
  have hmembers : ∀ m ∈ members, Json.Parses 9999 m.2.1 m.2.2 := by
    intro m hm
    simp only [members, List.mem_cons, List.not_mem_nil, or_false] at hm
    rcases hm with rfl | rfl | rfl
    · exact Json.parses_string _ _
    · exact Json.parses_string _ _
    · exact Json.parses_mapText (fun v => Json.parses_string 9998 v) keys p.params
  exact Json.parse_of_parses (Json.parses_objectText hmembers)

/-- **A payload comes back as it was enqueued**, without an error and with all that is not valid
UTF-8 replaced. -/
theorem unmarshal_marshal (foldRune : Nat → Nat) (keys : Finset Str) (p : TaskPayload)
    (hvalid : ∀ k ∈ keys, ValidUtf8 k) (hkeys : ∀ k, p.params k ≠ none → k ∈ keys) :
    unmarshalPayload foldRune (marshalPayload keys p) = (p.repaired, true) := by
  let params := (Json.entries keys p.params).map fun (k, v) => (repair k, Json.Value.str (repair v))
  have hstore : Json.store params stringOf (fun _ => none) = fun k => (p.params k).map repair :=
    Json.store_members (fun v => .str (repair v)) (fun _ => rfl)
      (Json.mem_repaired_entries (fun v => .str (repair v)) hvalid hkeys)
  have hfits : (params.all fun m => fits m.2) = true := by
    refine List.all_eq_true.mpr fun m hm => ?_
    obtain ⟨⟨k, v⟩, _, rfl⟩ := List.mem_map.mp hm
    rfl
  rw [unmarshalPayload, parse_marshalPayload]
  show (storeField _ .params (.obj params)).map id (true && ·) = _
  simp only [storeField, hfits]
  exact congrArg (fun m => (TaskPayload.mk _ _ m, true)) hstore

/-! ## What `EnqueueCreateFolder` writes -/

/-- The keys of the map that `EnqueueCreateFolder` builds. -/
def createFolderKeys : Finset Str := {str "parent", str "name", str "by"}

/-- What the queue of the program encodes its payloads with; `EnqueueCreateFolder` is all that
enqueues anything. -/
def jsonCodec : Codec := ⟨fun p => .ok (marshalPayload createFolderKeys p), formatTime⟩

theorem ascii_appendInt (x width : Nat) : ∀ b ∈ appendInt x width, b.toNat < 0x80 := by
  have hdecimal : ∀ fuel x, ∀ b ∈ decimal fuel x, b.toNat < 0x80 := by
    intro fuel
    induction fuel with
    | zero => exact fun x b hb => absurd hb List.not_mem_nil
    | succ fuel ih =>
      intro x b hb
      unfold decimal at hb
      split at hb
      · cases hb
      · rcases List.mem_append.mp hb with hb | hb
        · exact ih _ b hb
        · rw [List.mem_singleton.mp hb, UInt8.toNat_ofNat']
          omega
  intro b hb
  rcases List.mem_append.mp hb with hb | hb
  · rw [List.eq_of_mem_replicate hb]
    decide
  · exact hdecimal _ _ b hb

theorem validUtf8_formatTime (now : Nat) : ValidUtf8 (formatTime now) := by
  refine validUtf8_ascii fun b hb => ?_
  have htext : ∀ c ∈ str "T" ++ str "." ++ str "Z", c.toNat < 0x80 := by decide +kernel
  simp only [List.mem_append] at htext
  rw [formatTime_eq, afterYear] at hb
  simp only [List.mem_append] at hb
  rcases hb with h | h | h | h | h | h | h | h | h | h
  all_goals first
    | exact ascii_appendInt _ _ b h
    | exact htext b (by simp only [h, true_or, or_true])

/-- **A `CreateFolder` task is read back** with its ID and with the three arguments as JSON
leaves them. -/
theorem unmarshal_createFolder (foldRune : Nat → Nat) (marshal : TaskPayload → Except Str Str)
    (now : Nat) (parentPath folderName requestedBy : Str) :
    unmarshalPayload foldRune (marshalPayload createFolderKeys
        (createFolderPayload ⟨marshal, formatTime⟩ now parentPath folderName requestedBy)) =
      (createFolderPayload ⟨marshal, formatTime⟩ now (repair parentPath) (repair folderName)
        (repair requestedBy), true) := by
  have hvalid : ∀ k ∈ createFolderKeys, ValidUtf8 k := by decide
  have hparams : ∀ k, createFolderParams parentPath folderName requestedBy k ≠ none →
      k ∈ createFolderKeys := by
    intro k hk
    by_contra hnot
    simp only [createFolderKeys, Finset.mem_insert, Finset.mem_singleton, not_or,
      ← beq_eq_false_iff_ne] at hnot
    simp [createFolderParams, List.lookup_cons, hnot] at hk
  rw [unmarshal_marshal foldRune _ _ hvalid hparams]
  have hrepaired : (fun k => (createFolderParams parentPath folderName requestedBy k).map repair) =
      createFolderParams (repair parentPath) (repair folderName) (repair requestedBy) := by
    funext k
    simp only [createFolderParams, List.lookup_cons, List.lookup_nil]
    cases k == str "parent" <;> cases k == str "name" <;> cases k == str "by" <;> rfl
  have htype : repair (str "create_folder") = str "create_folder" := by decide
  have hid : repair (formatTime now) = formatTime now := validUtf8_formatTime now
  simp only [TaskPayload.repaired, createFolderPayload, hid, htype, hrepaired]

end FileEngine.Queue
