import Hsm.Proofs.ValueText
import Hsm.Content.Send
/-! Events and send actions read back through any JSON library that reads back plain values. An
event's object holds its name, kind and data and exactly the optional fields it has. -/
namespace Hsm
open Json

def Json.Value.optField (k : String) : Option Value → List (String × Value)
  | some v => [(k, v)]
  | none => []

namespace Duration

/-- A duration as the language has it: seconds in 64 bits, nanoseconds below a second. -/
def Valid (d : Duration) : Prop := d.secs ≤ u64Bound ∧ d.nanos < 10 ^ 9

theorem ofParts_of_valid {d : Duration} (hd : d.Valid) : ofParts d.secs d.nanos = .ok d := by
  have hn : d.nanos < 1000000000 := hd.2
  have h : d.nanos / 1000000000 = 0 := Nat.div_eq_of_lt hn
  simp only [ofParts, h, Nat.add_zero, Nat.mod_eq_of_lt hn, if_neg (Nat.not_lt.2 hd.1)]

end Duration

theorem Duration.Valid.toValue_plain {d : Duration} (hd : d.Valid) : d.toValue.plain = true := by
  have hn : d.nanos ≤ u64Bound := by have := hd.2; unfold u64Bound; omega
  simp +decide only [Duration.toValue, Value.plain, Value.plain.plainFields, Value.KeysOrdered, hn, hd.1,
    Bool.and_true, and_true]

theorem Duration.ofValue_toValue {d : Duration} (hd : d.Valid) : Duration.ofValue d.toValue = .ok d := by
  have hn : d.nanos ≤ u32Bound := by have := hd.2; unfold u32Bound; omega
  simp +decide [Duration.ofValue, Duration.toValue, Value.asStruct, Duration.ofValue.fromFields, Value.asUnsigned,
    hn, hd.1]
  exact Duration.ofParts_of_valid hd

namespace Event

theorem toValue_eq (e : Event) :
    e.toValue = .obj ([("data", e.data)] ++ Value.optField "delay" (e.delay.map Duration.toValue) ++
      Value.optField "invoke_id" (e.invokeId.map .str) ++
      [("kind", .str e.kind.name), ("name", .str e.name)] ++
      Value.optField "origin" (e.origin.map .str) ++ Value.optField "send_id" (e.sendId.map .str)) := by
  rcases e with ⟨name, kind, data, _ | i, _ | o, _ | s, _ | d⟩ <;>
    simp +decide only [toValue, Value.ofFields, Value.insertField, Value.optField, Option.map,
      List.append_nil, List.cons_append, List.nil_append, List.foldl_cons, List.foldl_nil, ite_true,
      ite_false]

theorem kindOfValue_name (k : EventKind) : kindOfValue (.str k.name) = .ok k := by
  cases k <;> rfl

section Fields
variable (e : Event)

theorem setField_name (s : String) : e.setField "name" (.str s) = pure { e with name := s } := by
  simp +decide [setField]; rfl

theorem setField_kind (k : EventKind) : e.setField "kind" (.str k.name) = pure { e with kind := k } := by
  simp +decide [setField, kindOfValue_name]; rfl

theorem setField_data (v : Value) : e.setField "data" v = pure { e with data := v } := by
  simp +decide [setField]

theorem setField_invokeId (s : String) :
    e.setField "invoke_id" (.str s) = pure { e with invokeId := some s } := by
  simp +decide [setField, Value.asOption, Value.asString]; rfl

theorem setField_origin (s : String) :
    e.setField "origin" (.str s) = pure { e with origin := some s } := by
  simp +decide [setField, Value.asOption, Value.asString]; rfl

theorem setField_sendId (s : String) :
    e.setField "send_id" (.str s) = pure { e with sendId := some s } := by
  simp +decide [setField, Value.asOption, Value.asString]; rfl

theorem setField_delay {d : Duration} (hd : d.Valid) :
    e.setField "delay" d.toValue = pure { e with delay := some d } := by
  have h : Value.asOption Duration.ofValue d.toValue = .ok (some d) := by
    show some <$> Duration.ofValue d.toValue = _
    rw [Duration.ofValue_toValue hd]
    rfl
  simp +decide [setField, h]
  rfl

end Fields

theorem ofValue_toValue {e : Event} (he : ∀ d ∈ e.delay, d.Valid) : ofValue e.toValue = .ok e := by
  rw [toValue_eq]
  rcases e with ⟨name, kind, data, _ | i, _ | o, _ | s, _ | d⟩
  all_goals simp only [Option.mem_def, Option.some.injEq, forall_eq'] at he
  all_goals simp [ofValue, Value.asStruct, Value.optField, setField_data, setField_delay,
    setField_invokeId, setField_kind, setField_name, setField_origin, setField_sendId, he]
  all_goals rfl

theorem toValue_plain {e : Event} (hp : e.data.plain = true) (he : ∀ d ∈ e.delay, d.Valid) :
    e.toValue.plain = true := by
  have hdelay : ∀ d ∈ e.delay, d.toValue.plain = true := fun d hd => (he d hd).toValue_plain
  rw [toValue_eq]
  rcases e with ⟨name, kind, data, _ | i, _ | o, _ | s, _ | d⟩
  all_goals simp only [Option.mem_def, Option.some.injEq, forall_eq'] at hdelay
  all_goals simp +decide [Value.plain, Value.plain.plainFields, Value.optField, Value.KeysOrdered, hp,
    hdelay]

end Event

namespace SendAction

theorem toValue_eq (a : SendAction) :
    a.toValue = .obj ([("data", a.data)] ++ Value.optField "delay" (a.delay.map Duration.toValue) ++
      [("event", .str a.event)] ++ Value.optField "id" (a.id.map .str) ++
      Value.optField "target" (a.target.map .str)) := by
  rcases a with ⟨ev, _ | t, data, _ | i, _ | d⟩ <;>
    simp +decide only [toValue, Value.ofFields, Value.insertField, Value.optField, Option.map, List.append_nil,
      List.cons_append, List.nil_append, List.foldl_cons, List.foldl_nil, ite_true, ite_false]

namespace Partial

variable (p : Partial)

theorem set_data (v : Value) : p.set "data" v = pure { p with data := v } := by
  simp +decide [set]

theorem set_event (s : String) : p.set "event" (.str s) = pure { p with event := some s } := by
  simp +decide [set, Value.asString]; rfl

theorem set_id (s : String) : p.set "id" (.str s) = pure { p with id := some s } := by
  simp +decide [set, Value.asOption, Value.asString]; rfl

theorem set_target (s : String) : p.set "target" (.str s) = pure { p with target := some s } := by
  simp +decide [set, Value.asOption, Value.asString]; rfl

theorem set_delay {d : Duration} (hd : d.Valid) : p.set "delay" d.toValue = pure { p with delay := some d } := by
  have h : Value.asOption Duration.ofValue d.toValue = .ok (some d) := by
    show some <$> Duration.ofValue d.toValue = _
    rw [Duration.ofValue_toValue hd]
    rfl
  simp +decide [set, h]
  rfl

end Partial

theorem ofValue_toValue {a : SendAction} (ha : ∀ d ∈ a.delay, d.Valid) : ofValue a.toValue = .ok a := by
  rw [toValue_eq]
  rcases a with ⟨ev, _ | t, data, _ | i, _ | d⟩
  all_goals simp only [Option.mem_def, Option.some.injEq, forall_eq'] at ha
  all_goals simp [ofValue, Value.asStruct, Value.optField, Partial.set_data, Partial.set_event, Partial.set_id,
    Partial.set_target, Partial.set_delay, Partial.finish, ha]

theorem toValue_plain {a : SendAction} (hp : a.data.plain = true) (ha : ∀ d ∈ a.delay, d.Valid) :
    a.toValue.plain = true := by
  have hdelay : ∀ d ∈ a.delay, d.toValue.plain = true := fun d hd => (ha d hd).toValue_plain
  rw [toValue_eq]
  rcases a with ⟨ev, _ | t, data, _ | i, _ | d⟩
  all_goals simp only [Option.mem_def, Option.some.injEq, forall_eq'] at hdelay
  all_goals simp +decide [Value.plain, Value.plain.plainFields, Value.optField, Value.KeysOrdered, hp, hdelay]

end SendAction

/-! ### Reading back through a library -/

section Library
variable {lib : Library} (hlib : lib.ReadsBack)
include hlib

theorem Event.parseWith_printWith {e : Event} (hp : e.data.plain = true) (he : ∀ d ∈ e.delay, d.Valid) :
    Event.parseWith lib (Event.printWith lib e) = .ok e := by
  unfold Event.parseWith Event.printWith
  rw [hlib _ (Event.toValue_plain hp he)]
  show Except.mapError _ (Event.ofValue e.toValue) = _
  rw [Event.ofValue_toValue he]
  rfl

theorem SendAction.parseWith_printWith {a : SendAction} (hp : a.data.plain = true)
    (ha : ∀ d ∈ a.delay, d.Valid) : SendAction.parseWith lib (SendAction.printWith lib a) = .ok a := by
  unfold SendAction.parseWith SendAction.printWith
  rw [hlib _ (SendAction.toValue_plain hp ha)]
  show Except.mapError _ (SendAction.ofValue a.toValue) = _
  rw [SendAction.ofValue_toValue ha]
  rfl

end Library

end Hsm
