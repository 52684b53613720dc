import WordCalc.Proofs.Decoding

/-!
# Fetching

Decoding a program is fetching at the offset where the last instruction ended, over
and over (`fetches_decode`).
-/

namespace WordCalc.Program

/-- What stands at an offset: nothing behind the end of the code, and else an
instruction or the reason why there is none. -/
def fetch (code : List UInt8) (offset : Nat) : Option (Except Cause Instruction) :=
  code[offset]?.map fun b =>
    match Opcode.ofByte? b with
    | none => .error (.unknownByte b)
    | some (.operation op) => .ok (.operation op)
    | some .push =>
      let operand := (code.drop (offset + 1)).take Word.size
      if operand.length < Word.size then .error (.truncated operand.length)
      else .ok (.push (Word.ofBytes operand))

theorem fetch_eq_none_iff {code : List UInt8} {offset : Nat} :
    fetch code offset = none ↔ code.length ≤ offset := by
  rw [fetch, Option.map_eq_none_iff, List.getElem?_eq_none_iff]

section Drop

variable {code rest : List UInt8} {offset : Nat} {b : UInt8} (h : code.drop offset = b :: rest)

include h

theorem getElem?_of_drop : code[offset]? = some b := by
  rw [← List.head?_drop, h, List.head?_cons]

theorem drop_of_drop : code.drop (offset + 1) = rest := by
  rw [← List.tail_drop, h, List.tail_cons]

theorem fetch_unknown (hb : Opcode.ofByte? b = none) :
    fetch code offset = some (.error (.unknownByte b)) := by
  rw [fetch, getElem?_of_drop h, Option.map_some, hb]

theorem fetch_operation {op : Operation} (hb : Opcode.ofByte? b = some (.operation op)) :
    fetch code offset = some (.ok (.operation op)) := by
  rw [fetch, getElem?_of_drop h, Option.map_some, hb]

theorem fetch_truncated (hb : Opcode.ofByte? b = some .push)
    (hlen : (rest.take Word.size).length < Word.size) :
    fetch code offset = some (.error (.truncated (rest.take Word.size).length)) := by
  rw [fetch, getElem?_of_drop h, Option.map_some, hb]
  simp only [drop_of_drop h, if_pos hlen]

theorem fetch_push (hb : Opcode.ofByte? b = some .push)
    (hlen : ¬ (rest.take Word.size).length < Word.size) :
    fetch code offset = some (.ok (.push (Word.ofBytes (rest.take Word.size)))) := by
  rw [fetch, getElem?_of_drop h, Option.map_some, hb]
  simp only [drop_of_drop h, if_neg hlen]

end Drop

/-- All that can stand at an offset. -/
inductive Stands (code : List UInt8) (offset : Nat) : Option (Except Cause Instruction) → Prop
  | nothing : code.length ≤ offset → Stands code offset none
  | unknown {b : UInt8} : code[offset]? = some b → Opcode.ofByte? b = none →
      Stands code offset (some (.error (.unknownByte b)))
  | operation {op : Operation} : code[offset]? = some (Opcode.operation op).byte →
      code.drop offset = (Opcode.operation op).byte :: code.drop (offset + 1) →
      Stands code offset (some (.ok (.operation op)))
  | truncated : code[offset]? = some Opcode.push.byte →
      (code.drop (offset + 1)).length < Word.size →
      Stands code offset (some (.error (.truncated (code.drop (offset + 1)).length)))
  | push {operand : List UInt8} : code[offset]? = some Opcode.push.byte →
      operand.length = Word.size →
      code.drop offset = Opcode.push.byte :: (operand ++ code.drop (offset + 1 + Word.size)) →
      Stands code offset (some (.ok (.push (Word.ofBytes operand))))

theorem stands_fetch (code : List UInt8) (offset : Nat) :
    Stands code offset (fetch code offset) := by
  cases hdrop : code.drop offset with
  | nil =>
    have hle := List.drop_eq_nil_iff.mp hdrop
    rw [fetch_eq_none_iff.mpr hle]
    exact .nothing hle
  | cons b rest =>
    have hget := getElem?_of_drop hdrop
    have hrest := drop_of_drop hdrop
    cases hb : Opcode.ofByte? b with
    | none =>
      rw [fetch_unknown hdrop hb]
      exact .unknown hget hb
    | some o =>
      obtain rfl : o.byte = b := Opcode.byte_of_ofByte? hb
      cases o with
      | operation op =>
        rw [fetch_operation hdrop hb]
        exact .operation hget (by rw [hdrop, hrest])
      | push =>
        have hmin := List.length_take (i := Word.size) (l := rest)
        by_cases hlen : (rest.take Word.size).length < Word.size
        · have hshort : (rest.take Word.size).length = (code.drop (offset + 1)).length := by
            rw [hrest]
            omega
          rw [fetch_truncated hdrop hb hlen, hshort]
          exact .truncated hget (hshort ▸ hlen)
        · have hsize : (rest.take Word.size).length = Word.size := by omega
          rw [fetch_push hdrop hb hlen]
          refine .push hget hsize ?_
          rw [hdrop, ← List.drop_drop, hrest, List.take_append_drop]

theorem stands_of_fetch {code : List UInt8} {offset : Nat}
    {found : Option (Except Cause Instruction)} (h : fetch code offset = found) :
    Stands code offset found := by
  rw [← h]
  exact stands_fetch code offset

theorem fetch_eq_unknown_iff {code : List UInt8} {offset : Nat} {b : UInt8} :
    fetch code offset = some (.error (.unknownByte b)) ↔
      code[offset]? = some b ∧ Opcode.ofByte? b = none := by
  constructor
  · intro h
    cases stands_of_fetch h with
    | unknown hb hnone => exact ⟨hb, hnone⟩
  · rintro ⟨hb, hnone⟩
    rw [fetch, hb, Option.map_some, hnone]

theorem fetch_eq_truncated_iff {code : List UInt8} {offset count : Nat} :
    fetch code offset = some (.error (.truncated count)) ↔
      code[offset]? = some Opcode.push.byte ∧ (code.drop (offset + 1)).length = count ∧
        count < Word.size := by
  constructor
  · intro h
    cases stands_of_fetch h with
    | truncated hb hlen => exact ⟨hb, rfl, hlen⟩
  · rintro ⟨hb, rfl, hlen⟩
    have hshort : ((code.drop (offset + 1)).take Word.size).length =
        (code.drop (offset + 1)).length := by
      rw [List.length_take]
      omega
    rw [fetch, hb, Option.map_some, Opcode.ofByte?_byte]
    simp only [hshort, if_pos hlen]

/-- The instructions from an offset up to another one, each of them where the
one before it ends. -/
inductive Fetches (code : List UInt8) : Nat → List Located → Nat → Prop
  | nil (offset : Nat) : Fetches code offset [] offset
  | cons {offset stop : Nat} {i : Instruction} {rest : List Located} :
    fetch code offset = some (.ok i) → Fetches code (offset + i.size) rest stop →
      Fetches code offset (⟨offset, i⟩ :: rest) stop

/-- Where decoding stops: nothing is left there, or the fault is what stands
there. -/
inductive StopsAt (code : List UInt8) : Option Fault → Nat → Prop
  | clean {stop : Nat} : fetch code stop = none → StopsAt code none stop
  | fault {stop : Nat} {cause : Cause} :
    fetch code stop = some (.error cause) → StopsAt code (some ⟨cause, stop⟩) stop

namespace StopsAt

variable {code : List UInt8} {fault : Option Fault} {s : Nat}

theorem eq_none_iff (h : StopsAt code fault s) : fault = none ↔ fetch code s = none := by
  cases h with
  | clean h => simp [h]
  | fault h => simp [h]

theorem eq_some_iff (h : StopsAt code fault s) {cause : Cause} :
    fault = some ⟨cause, s⟩ ↔ fetch code s = some (.error cause) := by
  cases h with
  | clean h => simp [h]
  | fault h => simp [h]

theorem eq_getD (h : StopsAt code fault s) (hs : s ≤ code.length) :
    s = (fault.map Fault.offset).getD code.length := by
  cases h with
  | clean h => exact Nat.le_antisymm hs (fetch_eq_none_iff.mp h)
  | fault => rfl

end StopsAt

theorem exists_fetches {code bytes : List UInt8} {offset : Nat} (h : code.drop offset = bytes) :
    ∃ stop, Fetches code offset (decodeFrom offset bytes).instructions stop ∧
      StopsAt code (decodeFrom offset bytes).fault stop := by
  fun_induction decodeFrom offset bytes with
  | case1 offset =>
    exact ⟨offset, .nil offset, .clean (fetch_eq_none_iff.mpr (List.drop_eq_nil_iff.mp h))⟩
  | case2 offset b rest hb => exact ⟨offset, .nil offset, .fault (fetch_unknown h hb)⟩
  | case3 offset b rest op hb ih =>
    obtain ⟨stop, hfetches, hstop⟩ := ih (drop_of_drop h)
    exact ⟨stop, .cons (fetch_operation h hb) hfetches, hstop⟩
  | case4 offset b rest hb hlen => exact ⟨offset, .nil offset, .fault (fetch_truncated h hb hlen)⟩
  | case5 offset b rest hb hlen ih =>
    have hdrop : code.drop (offset + 1 + Word.size) = rest.drop Word.size := by
      rw [← List.drop_drop, drop_of_drop h]
    obtain ⟨stop, hfetches, hstop⟩ := ih hdrop
    refine ⟨stop, .cons (fetch_push h hb hlen) ?_, hstop⟩
    rwa [Instruction.size, ← Nat.add_assoc]

theorem fetches_decode (code : List UInt8) :
    ∃ stop, Fetches code 0 (decode code).instructions stop ∧ StopsAt code (decode code).fault stop :=
  exists_fetches rfl

end WordCalc.Program
