import MinimaxCode.ToolCallStream

/-!
# Interleaved tool calls

The pieces of several tool calls arrive in any order. The merged accumulator has a closed
form in which every slot depends on the deltas of its own index only; from it follow what a
slot holds, that the order between different indices does not matter, and that the calls of a
stream are those its indices give alone. The client of the model carries a second copy of the
merge, which computes the same.
-/

namespace MinimaxCode

open PyText PyJson

namespace Llm

open Agent

/-- A slot after a delta; the identifier is looked up before it is tested. -/
def mergeSlot (delta fn : List (PyStr × Json)) (slot : Slot) : Slot where
  id := if has delta (lit "id") && truthy ((get delta (lit "id")).getD .null)
    then (get delta (lit "id")).getD .null else slot.id
  type := setTruthy slot.type (get delta (lit "type"))
  name := slot.name++textField fn (lit "name")
  arguments := slot.arguments++textField fn (lit "arguments")

/-- `_merge_tool_call_delta` of the client; nothing where it raises. -/
def mergeToolCallDelta (intOfStr : PyStr → Option ℤ) (acc : List Slot) (delta : List (PyStr × Json)) :
    Option (List Slot) :=
  (deltaIndex intOfStr delta).bind fun index =>
    let acc := acc++List.replicate ((index+1).toNat-acc.length) blankSlot
    (position acc index).bind fun i =>
      (functionDelta delta).map fun fn => acc.modify i (mergeSlot delta fn)

/-- `_assemble`; nothing where it raises. -/
def assemble (intOfStr : PyStr → Option ℤ) (chunks : List StreamChunk) : Option LLMResponse :=
  ((chunks.flatMap StreamChunk.toolCallDeltas).foldlM (mergeToolCallDelta intOfStr) []).bind fun slots =>
    (slots.mapM Slot.toolCall).map fun calls =>
      { message := ⟨chunks.flatMap StreamChunk.delta,calls.filter ToolCall.kept⟩
        usage := (chunks.map StreamChunk.usage).foldl (fun old new => if new = [] then old else new) []
        finishReason := (chunks.filterMap StreamChunk.finishReason).foldl
          (fun old new => if new = [] then old else new) (lit "stop") }

theorem mergeSlot_eq (delta fn : List (PyStr × Json)) (slot : Slot) :
    mergeSlot delta fn slot = Agent.mergeSlot delta fn slot := by
  unfold mergeSlot Agent.mergeSlot
  congr 1
  cases h : get delta (lit "id") with
  | none => simp [has,h,setTruthy,truthy]
  | some v => simp [has,h,setTruthy]

theorem mergeToolCallDelta_eq (intOfStr : PyStr → Option ℤ) :
    mergeToolCallDelta intOfStr = Agent.mergeToolCallDelta intOfStr := by
  funext acc delta
  simp only [mergeToolCallDelta,Agent.mergeToolCallDelta,funext (mergeSlot_eq delta _)]

theorem assemble_eq (intOfStr : PyStr → Option ℤ) : assemble intOfStr = assembleChunks intOfStr := by
  funext chunks
  rw [assemble,assembleChunks,mergeToolCallDelta_eq]

end Llm

namespace Agent

variable (intOfStr : PyStr → Option ℤ)

/-- The accumulator after a stream of deltas; nothing where a merge raises. -/
def mergeAll (deltas : List (List (PyStr × Json))) : Option (List Slot) :=
  deltas.foldlM (mergeToolCallDelta intOfStr) []

/-- Every delta has an index that is not negative. -/
def Indexed (deltas : List (List (PyStr × Json))) : Prop :=
  ∀ d ∈ deltas, ∃ n : ℕ, deltaIndex intOfStr d = some (n : ℤ)

/-- The deltas of one index, in arrival order. -/
def deltasAt (i : ℕ) (deltas : List (List (PyStr × Json))) : List (List (PyStr × Json)) :=
  deltas.filter fun d => deltaIndex intOfStr d = some (i : ℤ)

def indexOf (d : List (PyStr × Json)) : ℕ := ((deltaIndex intOfStr d).getD 0).toNat

/-- The number of slots a stream needs. -/
def width (deltas : List (List (PyStr × Json))) : ℕ :=
  deltas.foldr (fun d w => max (indexOf intOfStr d+1) w) 0

/-- No delta raises: what it holds as a function can be read. -/
def Readable (deltas : List (List (PyStr × Json))) : Prop :=
  ∀ d ∈ deltas, (functionDelta d).isSome = true

instance (deltas : List (List (PyStr × Json))) : Decidable (Readable deltas) :=
  inferInstanceAs (Decidable (∀ d ∈ deltas, (functionDelta d).isSome = true))

/-- The function part of a delta. -/
def functionOf (d : List (PyStr × Json)) : List (PyStr × Json) := (functionDelta d).getD []

/-- The pieces of the name that deltas carry, concatenated. -/
def namePieces (deltas : List (List (PyStr × Json))) : PyStr :=
  deltas.flatMap fun d => textField (functionOf d) (lit "name")

/-- The pieces of the arguments, concatenated. -/
def argumentPieces (deltas : List (List (PyStr × Json))) : PyStr :=
  deltas.flatMap fun d => textField (functionOf d) (lit "arguments")

/-- The tool-call deltas of a stream of chunks. -/
def toolDeltas (chunks : List StreamChunk) : List (List (PyStr × Json)) :=
  chunks.flatMap StreamChunk.toolCallDeltas

/-- The slot that the deltas of one call build. -/
def slotOf (deltas : List (List (PyStr × Json))) : Slot :=
  deltas.foldl (fun slot d => mergeSlot d (functionOf d) slot) blankSlot

/-- The accumulator in closed form. -/
def slotsOf (deltas : List (List (PyStr × Json))) : List Slot :=
  (List.range (width intOfStr deltas)).map fun i => slotOf (deltasAt intOfStr i deltas)

variable {intOfStr} {ds : List (List (PyStr × Json))} {d : List (PyStr × Json)} {i : ℕ}

theorem Indexed.of_append {es : List (List (PyStr × Json))} (h : Indexed intOfStr (ds++es)) :
    Indexed intOfStr ds ∧ Indexed intOfStr es :=
  List.forall_mem_append.mp h

theorem indexOf_of {n : ℕ} (h : deltaIndex intOfStr d = some (n : ℤ)) :
    indexOf intOfStr d = n := by
  simp [indexOf,h]

theorem width_append_singleton (ds : List (List (PyStr × Json))) (d : List (PyStr × Json)) :
    width intOfStr (ds++[d]) = max (width intOfStr ds) (indexOf intOfStr d+1) := by
  induction ds with
  | nil => simp [width]
  | cons e ds ih =>
    have hcons : ∀ es, width intOfStr (e::es) = max (indexOf intOfStr e+1) (width intOfStr es) :=
      fun _ => rfl
    rw [List.cons_append,hcons,hcons,ih,max_assoc]

theorem deltasAt_append_singleton (i : ℕ) (ds : List (List (PyStr × Json))) (d : List (PyStr × Json)) :
    deltasAt intOfStr i (ds++[d]) =
      if deltaIndex intOfStr d = some (i : ℤ) then deltasAt intOfStr i ds++[d]
      else deltasAt intOfStr i ds := by
  rw [deltasAt,List.filter_append]
  split
  · next h => simp [h,deltasAt]
  · next h => simp [h,deltasAt]

theorem lt_width_iff :
    i < width intOfStr ds ↔ ∃ d ∈ ds, i ≤ indexOf intOfStr d := by
  induction ds with
  | nil => simp [width]
  | cons e ds ih =>
    rw [show width intOfStr (e::ds) = max (indexOf intOfStr e+1) (width intOfStr ds) from rfl,lt_max_iff,ih]
    simp

theorem deltasAt_eq_nil (h : width intOfStr ds ≤ i) :
    deltasAt intOfStr i ds = [] := by
  refine List.filter_eq_nil_iff.mpr fun d hd hi => ?_
  have hi := indexOf_of (of_decide_eq_true hi)
  exact absurd (lt_width_iff.mpr ⟨d,hd,hi.ge⟩) h.not_gt

theorem slotOf_append_singleton (ds : List (List (PyStr × Json))) (d : List (PyStr × Json)) :
    slotOf (ds++[d]) = mergeSlot d (functionOf d) (slotOf ds) := by
  rw [slotOf,List.foldl_append]
  rfl

theorem slotsOf_padded (ds : List (List (PyStr × Json))) (n : ℕ) :
    slotsOf intOfStr ds++List.replicate (n-(slotsOf intOfStr ds).length) blankSlot =
      (List.range (max (width intOfStr ds) n)).map fun i => slotOf (deltasAt intOfStr i ds) := by
  have hlen : (slotsOf intOfStr ds).length = width intOfStr ds := by simp [slotsOf]
  rw [hlen]
  refine List.ext_getElem (by simp [hlen]; omega) fun i hi _ => ?_
  simp only [List.getElem_map,List.getElem_range]
  by_cases h : i < width intOfStr ds
  · rw [List.getElem_append_left (by omega)]
    simp [slotsOf]
  · rw [List.getElem_append_right (by omega),deltasAt_eq_nil (not_lt.mp h)]
    simp [slotOf]

theorem slotsOf_append_singleton (ds : List (List (PyStr × Json))) {n : ℕ}
    (h : deltaIndex intOfStr d = some (n : ℤ)) :
    slotsOf intOfStr (ds++[d]) =
      ((List.range (max (width intOfStr ds) (n+1))).map fun i => slotOf (deltasAt intOfStr i ds)).modify n
        (mergeSlot d (functionOf d)) := by
  rw [slotsOf,width_append_singleton,indexOf_of h]
  refine List.ext_getElem (by simp) fun i hi _ => ?_
  rw [List.getElem_modify]
  simp only [List.getElem_map,List.getElem_range,deltasAt_append_singleton,h,Option.some.injEq,Nat.cast_inj]
  split
  · exact slotOf_append_singleton _ _
  · rfl

theorem merge_slotsOf (ds : List (List (PyStr × Json))) {n : ℕ}
    (h : deltaIndex intOfStr d = some (n : ℤ)) :
    mergeToolCallDelta intOfStr (slotsOf intOfStr ds) d =
      if (functionDelta d).isSome then some (slotsOf intOfStr (ds++[d])) else none := by
  have hpos : ∀ acc, position acc (n : ℤ) = some n := fun acc => by simp [position]
  rw [mergeToolCallDelta,h]
  simp only [Option.bind_some,hpos,show ((n : ℤ)+1).toNat = n+1 by omega,slotsOf_padded]
  cases hf : functionDelta d with
  | none => simp
  | some fn =>
    rw [slotsOf_append_singleton ds h]
    simp [functionOf,hf]

theorem readable_append_singleton :
    Readable (ds++[d]) ↔ Readable ds ∧ (functionDelta d).isSome = true := by
  rw [Readable,List.forall_mem_append]
  simp [Readable]

theorem mergeAll_eq (deltas : List (List (PyStr × Json))) (h : Indexed intOfStr deltas) :
    mergeAll intOfStr deltas = if Readable deltas then some (slotsOf intOfStr deltas) else none := by
  induction deltas using List.reverseRecOn with
  | nil => simp [mergeAll,Readable,slotsOf,width]
  | append_singleton ds d ih =>
    have hind := h.of_append
    obtain ⟨n,hn⟩ := hind.2 d (List.mem_singleton_self d)
    rw [mergeAll,List.foldlM_append,← mergeAll,ih hind.1]
    simp only [readable_append_singleton]
    by_cases hr : Readable ds
    · simp [hr,merge_slotsOf ds hn]
    · simp [hr]

theorem slotOf_texts (ds : List (List (PyStr × Json))) :
    (slotOf ds).name = namePieces ds ∧ (slotOf ds).arguments = argumentPieces ds := by
  induction ds using List.reverseRecOn with
  | nil => exact ⟨rfl,rfl⟩
  | append_singleton ds d ih =>
    rw [slotOf_append_singleton]
    simp [mergeSlot,ih.1,ih.2,namePieces,argumentPieces]

theorem deltasAt_deltasAt (i j : ℕ) (ds : List (List (PyStr × Json))) :
    deltasAt intOfStr j (deltasAt intOfStr i ds) = if j = i then deltasAt intOfStr i ds else [] := by
  rw [deltasAt,deltasAt,List.filter_filter]
  split
  · next h => simp [h]
  · next h =>
    refine List.filter_eq_nil_iff.mpr fun d _ hd => h ?_
    rw [Bool.and_eq_true,decide_eq_true_iff,decide_eq_true_iff] at hd
    exact Nat.cast_injective (Option.some.inj (hd.1.symm.trans hd.2))

theorem Indexed.deltasAt (h : Indexed intOfStr ds) (i : ℕ) :
    Indexed intOfStr (deltasAt intOfStr i ds) := fun d hd => h d (List.mem_filter.mp hd).1

theorem Readable.deltasAt (h : Readable ds) (i : ℕ) :
    Readable (deltasAt intOfStr i ds) := fun d hd => h d (List.mem_filter.mp hd).1

theorem width_deltasAt (ds : List (List (PyStr × Json))) (i : ℕ) :
    width intOfStr (deltasAt intOfStr i ds) = if deltasAt intOfStr i ds = [] then 0 else i+1 := by
  split
  · next h => rw [h]; rfl
  · next h =>
    obtain ⟨d,hd⟩ := List.exists_mem_of_ne_nil _ h
    have hof : ∀ e ∈ deltasAt intOfStr i ds, indexOf intOfStr e = i := fun e he =>
      indexOf_of (of_decide_eq_true (List.mem_filter.mp he).2)
    refine eq_of_forall_lt_iff fun j => ?_
    rw [lt_width_iff,Nat.lt_succ_iff]
    constructor
    · rintro ⟨e,he,hj⟩
      exact hj.trans (hof e he).le
    · exact fun hj => ⟨d,hd,hj.trans (hof d hd).ge⟩

theorem mem_deltasAt (h : Indexed intOfStr ds) : d ∈ ds ↔ ∃ i, d ∈ deltasAt intOfStr i ds := by
  constructor
  · intro hd
    obtain ⟨n,hn⟩ := h d hd
    exact ⟨n,List.mem_filter.mpr ⟨hd,decide_eq_true hn⟩⟩
  · rintro ⟨i,hi⟩
    exact (List.mem_filter.mp hi).1

theorem mergeAll_interleaved {es : List (List (PyStr × Json))} (hd : Indexed intOfStr ds)
    (he : Indexed intOfStr es) (h : ∀ i, deltasAt intOfStr i es = deltasAt intOfStr i ds) :
    mergeAll intOfStr es = mergeAll intOfStr ds := by
  have hmem : ∀ d, d ∈ es ↔ d ∈ ds := by
    intro d
    rw [mem_deltasAt hd,mem_deltasAt he]
    simp only [h]
  have hw : width intOfStr es = width intOfStr ds := by
    refine eq_of_forall_lt_iff fun i => ?_
    simp only [lt_width_iff,hmem]
  have hr : Readable es ↔ Readable ds := by simp only [Readable,hmem]
  rw [mergeAll_eq es he,mergeAll_eq ds hd]
  simp only [hr,slotsOf,hw,h]

variable (intOfStr) in
/-- The calls a stream of deltas gives, after the ghost-slot filter. -/
def assembledCalls (deltas : List (List (PyStr × Json))) : Option (List ToolCall) :=
  (mergeAll intOfStr deltas).bind fun slots =>
    (slots.mapM Slot.toolCall).map fun calls => calls.filter ToolCall.kept

theorem assembleChunks_calls (chunks : List StreamChunk) :
    (assembleChunks intOfStr chunks).map (fun r => r.message.toolCalls) =
      assembledCalls intOfStr (toolDeltas chunks) := by
  simp only [assembleChunks,toolDeltas,assembledCalls,mergeAll,Option.map_bind,Function.comp_def,Option.map_map]

/-- The call of a slot, if the slot is not a ghost. -/
def Slot.call (slot : Slot) : Option ToolCall := slot.toolCall.filter ToolCall.kept

theorem filter_mapM_toolCall (slots : List Slot) :
    ((slots.mapM Slot.toolCall).map fun calls => calls.filter ToolCall.kept) =
      if ∀ s ∈ slots, s.toolCall.isSome = true then some (slots.filterMap Slot.call) else none := by
  induction slots with
  | nil => rfl
  | cons s slots ih =>
    cases hs : s.toolCall with
    | none => simp [List.mapM_cons,hs]
    | some c =>
      simp only [List.mapM_cons,hs,List.forall_mem_cons,Option.isSome_some,true_and]
      by_cases hall : ∀ t ∈ slots, t.toolCall.isSome = true
      · rw [if_pos hall] at ih ⊢
        obtain ⟨calls,hcalls,hfilter⟩ := Option.map_eq_some_iff.mp ih
        have hcall : s.call = if c.kept then some c else none := by simp [Slot.call,hs,Option.filter]
        by_cases hc : c.kept = true
        · simp [hcalls,hfilter,hcall,hc]
        · simp [hcalls,hfilter,hcall,hc]
      · rw [if_neg hall] at ih ⊢
        simp [Option.map_eq_none_iff.mp ih]

theorem blankSlot_toolCall : blankSlot.toolCall = some ⟨[],.str (lit "function"),[],[]⟩ := rfl

theorem blankSlot_call : blankSlot.call = none := by decide

theorem assembledCalls_eq (ds : List (List (PyStr × Json))) (h : Indexed intOfStr ds) :
    assembledCalls intOfStr ds =
      if Readable ds ∧ ∀ i < width intOfStr ds, (slotOf (deltasAt intOfStr i ds)).toolCall.isSome = true then
        some ((List.range (width intOfStr ds)).filterMap fun i => (slotOf (deltasAt intOfStr i ds)).call)
      else none := by
  rw [assembledCalls,mergeAll_eq ds h]
  by_cases hr : Readable ds
  · simp [hr,filter_mapM_toolCall,slotsOf,List.filterMap_map]
  · simp [hr]

theorem slotOf_nil : slotOf [] = blankSlot := rfl

theorem assembledCalls_deltasAt (h : Indexed intOfStr ds)
    (hr : Readable ds) (hi : (slotOf (deltasAt intOfStr i ds)).toolCall.isSome = true) :
    assembledCalls intOfStr (deltasAt intOfStr i ds) =
      some (slotOf (deltasAt intOfStr i ds)).call.toList := by
  rw [assembledCalls_eq _ (h.deltasAt i),if_pos]
  · simp only [deltasAt_deltasAt,width_deltasAt]
    by_cases hnil : deltasAt intOfStr i ds = []
    · simp [hnil,slotOf_nil,blankSlot_call]
    · have hbelow : (List.range i).filterMap (fun j =>
          (slotOf (if j = i then deltasAt intOfStr i ds else [])).call) = [] := by
        refine List.filterMap_eq_nil_iff.mpr fun j hj => ?_
        rw [if_neg (List.mem_range.mp hj).ne,slotOf_nil,blankSlot_call]
      rw [if_neg hnil,List.range_succ,List.filterMap_append,hbelow]
      cases hc : (slotOf (deltasAt intOfStr i ds)).call <;> simp [hc]
  · refine ⟨hr.deltasAt i,fun j _ => ?_⟩
    rw [deltasAt_deltasAt]
    split
    · exact hi
    · rw [slotOf_nil,blankSlot_toolCall,Option.isSome_some]

theorem Slot.call_texts {slot : Slot} {c : ToolCall} (h : slot.call = some c) :
    c.name = slot.name ∧ c.arguments = slot.arguments := by
  have h := (Option.filter_eq_some_iff.mp h).1
  unfold Slot.toolCall at h
  split at h
  · cases h
    exact ⟨rfl,rfl⟩
  · cases h

theorem assembledCalls_by_index (h : Indexed intOfStr ds)
    {calls : List ToolCall} (hc : assembledCalls intOfStr ds = some calls) :
    ∃ callAt : ℕ → Option ToolCall,
      calls = (List.range (width intOfStr ds)).filterMap callAt ∧
      (∀ i, assembledCalls intOfStr (deltasAt intOfStr i ds) = some (callAt i).toList) ∧
      ∀ i c, callAt i = some c →
        c.name = namePieces (deltasAt intOfStr i ds) ∧ c.arguments = argumentPieces (deltasAt intOfStr i ds) := by
  rw [assembledCalls_eq ds h] at hc
  split at hc
  · next hcond =>
    obtain ⟨hr,hsome⟩ := hcond
    refine ⟨fun i => (slotOf (deltasAt intOfStr i ds)).call,(Option.some.inj hc).symm,fun i => ?_,?_⟩
    · refine assembledCalls_deltasAt h hr ?_
      by_cases hi : i < width intOfStr ds
      · exact hsome i hi
      · rw [deltasAt_eq_nil (not_lt.mp hi),slotOf_nil,blankSlot_toolCall,Option.isSome_some]
    · intro i c hcall
      obtain ⟨hname,hargs⟩ := Slot.call_texts hcall
      exact ⟨hname.trans (slotOf_texts _).1,hargs.trans (slotOf_texts _).2⟩
  · cases hc

theorem slot_of_mergeAll (h : Indexed intOfStr ds) {slots : List Slot}
    (hm : mergeAll intOfStr ds = some slots) {slot : Slot} (hi : slots[i]? = some slot) :
    slot.name = namePieces (deltasAt intOfStr i ds) ∧
      slot.arguments = argumentPieces (deltasAt intOfStr i ds) ∧
      ∃ alone, mergeAll intOfStr (deltasAt intOfStr i ds) = some alone ∧
        alone[i]?.getD blankSlot = slot := by
  rw [mergeAll_eq ds h] at hm
  split at hm
  · next hr =>
    cases hm
    have hslot : slot = slotOf (deltasAt intOfStr i ds) := by
      obtain ⟨hlt,hget⟩ := List.getElem?_eq_some_iff.mp hi
      rw [← hget]
      simp [slotsOf]
    subst hslot
    refine ⟨(slotOf_texts _).1,(slotOf_texts _).2,slotsOf intOfStr (deltasAt intOfStr i ds),?_,?_⟩
    · rw [mergeAll_eq _ (h.deltasAt i),if_pos (hr.deltasAt i)]
    · rw [slotsOf,width_deltasAt]
      by_cases hnil : deltasAt intOfStr i ds = []
      · simp [hnil,slotOf_nil]
      · simp [hnil,deltasAt_deltasAt]
  · cases hm

/-- A piece of the arguments of one call. -/
def argumentsDelta (index : ℤ) (piece : PyStr) : List (PyStr × Json) :=
  [(lit "index",.int index),(lit "id",.str (lit "call")),
    (lit "function",.obj [(lit "name",.str []),(lit "arguments",.str piece)])]

end Agent
end MinimaxCode
