import Mathlib.Tactic.Ring
import Mathlib.Tactic.Set
import RainRuntime.TimerWheel

/-!
# Timer ids

An id packs an index of the slotmap into 24 bits and the generation of that slot
into 40. As long as no more than `2 ^ 24` indices are allocated and every index is
handed out fewer than `2 ^ 40` times, an id names one occupancy of its slot for
ever: cancelled ids may stay behind in the slots of the wheel, be scanned and be
cascaded, and the later occupants of the index never notice.

The invariant `IdInv` speaks of the slotmap and the trace only, so everything that
moves ids between slots leaves it alone, and the three operations that do not are
an insertion and two ways to end a timer.
-/

namespace RainRuntime

theorem idIndex_eq_mod (id : TimerId) : idIndex id = id % 2 ^ 24 :=
  Nat.and_two_pow_sub_one_eq_mod id 24

theorem idGen_eq_div (id : TimerId) : idGen id = id / 2 ^ 24 := Nat.shiftRight_eq_div_pow id 24

theorem encodeId_eq {i g : ℕ} (hi : i < 2 ^ 24) (hg : g < 2 ^ 40) :
    encodeId i g = g * 2 ^ 24 + i := by
  have hsh : g <<< kIndexBits = g * 2 ^ 24 := Nat.shiftLeft_eq g 24
  have hlt : g <<< kIndexBits < 2 ^ 64 := by rw [hsh]; omega
  rw [encodeId, Nat.mod_eq_of_lt hlt, Nat.mod_eq_of_lt (show i < 2 ^ 32 by omega), ← hsh]
  exact (Nat.shiftLeft_add_eq_or_of_lt hi g).symm

theorem idIndex_lt (id : TimerId) : idIndex id < 2 ^ 24 := by
  rw [idIndex_eq_mod]
  exact Nat.mod_lt _ (by decide)

theorem idGen_lt {id : TimerId} (h : id < 2 ^ 64) : idGen id < 2 ^ 40 := by
  have hn : ∀ n : ℕ, n < 2 ^ 64 → n / 2 ^ 24 < 2 ^ 40 := by
    intro n hn
    omega
  rw [idGen_eq_div]
  exact hn id h

theorem encodeId_lt (i g : ℕ) : encodeId i g < 2 ^ 64 :=
  Nat.or_lt_two_pow (Nat.mod_lt _ (by decide))
    ((Nat.mod_lt i (show 0 < 2 ^ 32 by decide)).trans (by decide))

theorem idIndex_encodeId {i g : ℕ} (hi : i < 2 ^ 24) (hg : g < 2 ^ 40) :
    idIndex (encodeId i g) = i := by
  rw [encodeId_eq hi hg, idIndex_eq_mod]
  omega

theorem idGen_encodeId {i g : ℕ} (hi : i < 2 ^ 24) (hg : g < 2 ^ 40) :
    idGen (encodeId i g) = g := by
  rw [encodeId_eq hi hg, idGen_eq_div]
  omega

theorem id_ext {a b : TimerId} (hi : idIndex a = idIndex b) (hg : idGen a = idGen b) : a = b := by
  rw [idIndex_eq_mod, idIndex_eq_mod] at hi
  rw [idGen_eq_div, idGen_eq_div] at hg
  rw [← Nat.div_add_mod a (2 ^ 24), hi, hg, Nat.div_add_mod]

theorem id_eq_iff (a b : TimerId) : idIndex a = idIndex b ∧ idGen a = idGen b ↔ a = b :=
  ⟨fun h => id_ext h.1 h.2, by rintro rfl; exact ⟨rfl, rfl⟩⟩

namespace HierarchicalTimerWheel

theorem lookup_release (w : HierarchicalTimerWheel) (id j : TimerId) :
    (w.release id).lookup j = if j = id then none else w.lookup j := by
  simp only [lookup, release, Slotmap.get?_erase, id_eq_iff]

theorem cancel_fst (w : HierarchicalTimerWheel) (id : TimerId) :
    (w.cancel id).1 = (w.lookup id).isSome := by
  unfold cancel
  cases w.lookup id <;> rfl

end HierarchicalTimerWheel

namespace TimerEvent

def created : TimerEvent → Option TimerId
  | .scheduled e _ => some e.id
  | _ => none

def ended : TimerEvent → Option TimerId
  | .cancelled id => some id
  | .fired id _ => some id
  | .released id _ => some id
  | _ => none

def processed : TimerEvent → Option TimerId
  | .fired id _ => some id
  | .released id _ => some id
  | _ => none

theorem ended_of_processed {ev : TimerEvent} {id : TimerId} (h : ev.processed = some id) :
    ev.ended = some id := by
  cases ev <;> simp_all [processed, ended]

end TimerEvent

namespace TimerState

def visitEvents (t : TimerState) (id : TimerId) (e : TimerEntry) : List TimerEvent :=
  match e.state with
  | none => [.fired id t.wheel.currentTime]
  | some p =>
    if t.heap.state p ≠ .pending then [.released id t.wheel.currentTime, .stateRead id p]
    else [.fired id t.wheel.currentTime, .stateRead id p]

theorem visit_of_stale {t : TimerState} {id : TimerId} (h : t.wheel.lookup id = none) :
    t.visit id = t := by
  simp only [visit, h]

theorem fire_slotmap (t : TimerState) (id : TimerId) (e : TimerEntry) :
    (t.fire id e).wheel.slotmap = (t.wheel.release id).slotmap := by
  simp only [fire]
  cases e.handle with
  | none => rfl
  | some h => dsimp only; split_ifs <;> rfl

theorem visit_trace {t : TimerState} {id : TimerId} {e : TimerEntry}
    (h : t.wheel.lookup id = some e) : (t.visit id).trace = t.visitEvents id e ++ t.trace := by
  simp only [visit, h, visitEvents]
  cases e.state with
  | none => rfl
  | some p =>
    dsimp only
    split_ifs <;> rfl

theorem visit_slotmap {t : TimerState} {id : TimerId} {e : TimerEntry}
    (h : t.wheel.lookup id = some e) :
    (t.visit id).wheel.slotmap = (t.wheel.release id).slotmap := by
  simp only [visit, h]
  cases e.state with
  | none => exact fire_slotmap t id e
  | some p =>
    dsimp only
    split_ifs
    · rfl
    · exact fire_slotmap _ id e

end TimerState

/-- The limits the packing allows for: the indices ever allocated, and how often each was
handed out. -/
def Bounded (m : Slotmap TimerEntry) : Prop :=
  m.slots.length ≤ 2 ^ 24 ∧ ∀ s ∈ m.slots, s.generation < 2 ^ 40

instance (m : Slotmap TimerEntry) : Decidable (Bounded m) := inferInstanceAs (Decidable (_ ∧ _))

theorem Bounded.generation_lt {m : Slotmap TimerEntry} (h : Bounded m) (i : ℕ) :
    m.generation i < 2 ^ 40 := by
  unfold Slotmap.generation
  cases hs : m.slots[i]? with
  | none => simp
  | some s => exact h.2 s (List.mem_of_getElem? hs)

structure IdInv (m : Slotmap TimerEntry) (tr : List TimerEvent) : Prop where
  created_nodup : (tr.filterMap TimerEvent.created).Nodup
  ended_nodup : (tr.filterMap TimerEvent.ended).Nodup
  created_of_ended : ∀ id ∈ tr.filterMap TimerEvent.ended, id ∈ tr.filterMap TimerEvent.created
  key : ∀ id ∈ tr.filterMap TimerEvent.created,
    idIndex id < m.slots.length ∧ 0 < idGen id ∧ idGen id ≤ m.generation (idIndex id)
  live : ∀ id, (m.get? (idIndex id) (idGen id)).isSome ↔
    id ∈ tr.filterMap TimerEvent.created ∧ id ∉ tr.filterMap TimerEvent.ended
  entry : ∀ id e, m.get? (idIndex id) (idGen id) = some e →
    e.id = id ∧ ∃ now, TimerEvent.scheduled e now ∈ tr
  read : ∀ id p, TimerEvent.stateRead id p ∈ tr →
    id ∈ tr.filterMap TimerEvent.processed ∧
      ∃ e now, TimerEvent.scheduled e now ∈ tr ∧ e.id = id ∧ e.state = some p
  released : ∀ id τ, TimerEvent.released id τ ∈ tr → ∃ p, TimerEvent.stateRead id p ∈ tr

namespace IdInv
variable {m : Slotmap TimerEntry} {tr : List TimerEvent}

theorem empty : IdInv Slotmap.empty [] := by
  constructor <;> simp

theorem ending (h : IdInv m tr) {id : TimerId} {e : TimerEntry} (evs : List TimerEvent)
    (hlive : m.get? (idIndex id) (idGen id) = some e)
    (hcreated : evs.filterMap TimerEvent.created = [])
    (hended : evs.filterMap TimerEvent.ended = [id])
    (hread : ∀ j p, .stateRead j p ∈ evs →
      j = id ∧ e.state = some p ∧ id ∈ evs.filterMap TimerEvent.processed)
    (hreleased : ∀ j τ, .released j τ ∈ evs → ∃ p, .stateRead j p ∈ evs) :
    IdInv (m.erase (idIndex id) (idGen id)) (evs ++ tr) := by
  have hid := (h.live id).mp (by simp [hlive])
  have hc : (evs ++ tr).filterMap TimerEvent.created = tr.filterMap TimerEvent.created := by
    rw [List.filterMap_append, hcreated, List.nil_append]
  have he : (evs ++ tr).filterMap TimerEvent.ended = id :: tr.filterMap TimerEvent.ended := by
    rw [List.filterMap_append, hended, List.singleton_append]
  constructor
  case created_nodup => rw [hc]; exact h.created_nodup
  case ended_nodup => rw [he]; exact List.nodup_cons.mpr ⟨hid.2, h.ended_nodup⟩
  case created_of_ended =>
    intro j hj
    rw [he, List.mem_cons] at hj
    rw [hc]
    rcases hj with rfl | hj
    · exact hid.1
    · exact h.created_of_ended j hj
  case key =>
    intro j hj
    rw [hc] at hj
    rw [Slotmap.length_erase, Slotmap.generation_erase]
    exact h.key j hj
  case live =>
    intro j
    rw [hc, he, Slotmap.get?_erase, List.mem_cons]
    simp only [id_eq_iff]
    by_cases hj : j = id
    · simp [hj]
    · simp [hj, h.live j]
  case entry =>
    intro j e' hj
    rw [Slotmap.get?_erase] at hj
    split_ifs at hj
    obtain ⟨he', now, hn⟩ := h.entry j e' hj
    exact ⟨he', now, List.mem_append_right _ hn⟩
  case read =>
    intro j p hj
    rw [List.filterMap_append, List.mem_append]
    rcases List.mem_append.mp hj with hj | hj
    · obtain ⟨rfl, hp, hproc⟩ := hread j p hj
      obtain ⟨hid', now, hn⟩ := h.entry j e hlive
      exact ⟨Or.inl hproc, e, now, List.mem_append_right _ hn, hid', hp⟩
    · obtain ⟨hproc, e', now, hn, hid', hp⟩ := h.read j p hj
      exact ⟨Or.inr hproc, e', now, List.mem_append_right _ hn, hid', hp⟩
  case released =>
    intro j τ hj
    rcases List.mem_append.mp hj with hj | hj
    · obtain ⟨p, hp⟩ := hreleased j τ hj
      exact ⟨p, List.mem_append_left _ hp⟩
    · obtain ⟨p, hp⟩ := h.released j τ hj
      exact ⟨p, List.mem_append_right _ hp⟩

theorem nextId_fresh (h : IdInv m tr) (hi : m.nextIndex < 2 ^ 24) (hg : m.nextGeneration < 2 ^ 40) :
    encodeId m.nextIndex m.nextGeneration ∉ tr.filterMap TimerEvent.created := by
  intro hmem
  have hk := (h.key _ hmem).2.2
  rw [idIndex_encodeId hi hg, idGen_encodeId hi hg, Slotmap.nextGeneration] at hk
  omega

theorem scheduling (h : IdInv m tr) (hi : m.nextIndex < 2 ^ 24) (hg : m.nextGeneration < 2 ^ 40)
    (mk : ℕ → ℕ → TimerEntry) (hmk : ∀ i g, (mk i g).id = encodeId i g) (now : ℤ) :
    IdInv (m.insert mk) (.scheduled (mk m.nextIndex m.nextGeneration) now :: tr) := by
  have hfresh := h.nextId_fresh hi hg
  set new := encodeId m.nextIndex m.nextGeneration with hnew
  have hni : idIndex new = m.nextIndex := idIndex_encodeId hi hg
  have hng : idGen new = m.nextGeneration := idGen_encodeId hi hg
  have hc : (TimerEvent.scheduled (mk m.nextIndex m.nextGeneration) now :: tr).filterMap
      TimerEvent.created = new :: tr.filterMap TimerEvent.created := by
    simp [TimerEvent.created, hmk, hnew]
  have he : (TimerEvent.scheduled (mk m.nextIndex m.nextGeneration) now :: tr).filterMap
      TimerEvent.ended = tr.filterMap TimerEvent.ended := List.filterMap_cons_none rfl
  have hget : ∀ id, (m.insert mk).get? (idIndex id) (idGen id) =
      if id = new then some (mk m.nextIndex m.nextGeneration)
      else m.get? (idIndex id) (idGen id) := by
    intro id
    rw [Slotmap.get?_insert, ← hni, ← hng]
    simp only [id_eq_iff]
    split_ifs with hid
    · rw [hid]
    · rfl
  constructor
  case created_nodup => rw [hc]; exact List.nodup_cons.mpr ⟨hfresh, h.created_nodup⟩
  case ended_nodup => rw [he]; exact h.ended_nodup
  case created_of_ended =>
    intro id hid
    rw [he] at hid
    rw [hc]
    exact List.mem_cons_of_mem _ (h.created_of_ended id hid)
  case key =>
    intro id hid
    rw [hc, List.mem_cons] at hid
    rw [Slotmap.generation_insert]
    rcases hid with rfl | hid
    · rw [hni, hng, if_pos rfl]
      exact ⟨m.nextIndex_lt_length_insert mk, Nat.succ_pos _, le_rfl⟩
    · obtain ⟨hl, hpos, hle⟩ := h.key id hid
      refine ⟨hl.trans_le (m.length_insert mk), hpos, ?_⟩
      split_ifs with hx
      · rw [hx] at hle; unfold Slotmap.nextGeneration; omega
      · exact hle
  case live =>
    intro id
    rw [hget, hc, he, List.mem_cons]
    by_cases hid : id = new
    · subst hid
      have hne : new ∉ tr.filterMap TimerEvent.ended :=
        fun hmem => hfresh (h.created_of_ended _ hmem)
      simp [hne]
    · simp [hid, h.live id]
  case entry =>
    intro id e hid
    rw [hget] at hid
    split_ifs at hid with hx
    · rw [Option.some.injEq] at hid
      subst hid
      exact ⟨by rw [hmk, hx], now, List.mem_cons_self⟩
    · obtain ⟨he', n, hn⟩ := h.entry id e hid
      exact ⟨he', n, List.mem_cons_of_mem _ hn⟩
  case read =>
    intro id p hid
    obtain ⟨hproc, e, n, hn, hid', hp⟩ := h.read id p (by simpa using hid)
    refine ⟨?_, e, n, List.mem_cons_of_mem _ hn, hid', hp⟩
    simpa [TimerEvent.processed] using hproc
  case released =>
    intro id τ hid
    obtain ⟨p, hp⟩ := h.released id τ (by simpa using hid)
    exact ⟨p, List.mem_cons_of_mem _ hp⟩

end IdInv

theorem Bounded.of_grows {m m' : Slotmap TimerEntry} (h : Bounded m') (hg : m.Grows m') :
    Bounded m := by
  refine ⟨hg.1.trans h.1, fun s hs => ?_⟩
  obtain ⟨i, hi⟩ := List.mem_iff_getElem?.mp hs
  have hle := hg.2 i
  have hlt := h.generation_lt i
  simp only [Slotmap.generation, hi] at hle hlt
  omega

theorem Bounded.erase {m : Slotmap TimerEntry} (h : Bounded m) (i g : ℕ) :
    Bounded (m.erase i g) := by
  refine ⟨(m.length_erase i g).le.trans h.1, fun s hs => ?_⟩
  obtain ⟨j, hj⟩ := List.mem_iff_getElem?.mp hs
  have hg := m.generation_erase i g j
  have hlt := h.generation_lt j
  rw [← hg] at hlt
  simpa only [Slotmap.generation, hj] using hlt

theorem Bounded.nextIndex_lt {m : Slotmap TimerEntry} {mk : ℕ → ℕ → TimerEntry}
    (h : Bounded (m.insert mk)) : m.nextIndex < 2 ^ 24 :=
  (m.nextIndex_lt_length_insert mk).trans_le h.1

theorem Bounded.nextGeneration_lt {m : Slotmap TimerEntry} {mk : ℕ → ℕ → TimerEntry}
    (h : Bounded (m.insert mk)) : m.nextGeneration < 2 ^ 40 := by
  have hg := h.generation_lt m.nextIndex
  rwa [Slotmap.generation_insert, if_pos rfl] at hg

namespace TimerState

theorem visitEvents_created (t : TimerState) (id : TimerId) (e : TimerEntry) :
    (t.visitEvents id e).filterMap TimerEvent.created = [] := by
  unfold visitEvents
  cases e.state with
  | none => rfl
  | some p => dsimp only; split_ifs <;> rfl

theorem visitEvents_ended (t : TimerState) (id : TimerId) (e : TimerEntry) :
    (t.visitEvents id e).filterMap TimerEvent.ended = [id] := by
  unfold visitEvents
  cases e.state with
  | none => rfl
  | some p => dsimp only; split_ifs <;> rfl

theorem visitEvents_processed (t : TimerState) (id : TimerId) (e : TimerEntry) :
    (t.visitEvents id e).filterMap TimerEvent.processed = [id] := by
  unfold visitEvents
  cases e.state with
  | none => rfl
  | some p => dsimp only; split_ifs <;> rfl

theorem mem_visitEvents_read {t : TimerState} {id j : TimerId} {e : TimerEntry} {p : StatePtr}
    (h : .stateRead j p ∈ t.visitEvents id e) : j = id ∧ e.state = some p := by
  unfold visitEvents at h
  cases he : e.state with
  | none => simp [he] at h
  | some q =>
    simp only [he] at h
    split_ifs at h <;> simp_all

theorem mem_visitEvents_released {t : TimerState} {id j : TimerId} {e : TimerEntry}
    {τ : ℤ} (h : .released j τ ∈ t.visitEvents id e) :
    ∃ p, .stateRead j p ∈ t.visitEvents id e := by
  unfold visitEvents at h ⊢
  cases he : e.state with
  | none => simp [he] at h
  | some q =>
    simp only [he] at h ⊢
    split_ifs at h ⊢ <;> simp_all

theorem visit_idInv (t : TimerState) (id : TimerId) (h : IdInv t.wheel.slotmap t.trace) :
    IdInv (t.visit id).wheel.slotmap (t.visit id).trace := by
  cases hl : t.wheel.lookup id with
  | none => rw [visit_of_stale hl]; exact h
  | some e =>
    rw [visit_slotmap hl, visit_trace hl]
    refine h.ending _ hl (t.visitEvents_created id e) (t.visitEvents_ended id e) ?_ ?_
    · intro j p hj
      obtain ⟨rfl, hp⟩ := mem_visitEvents_read hj
      exact ⟨rfl, hp, by simp [visitEvents_processed]⟩
    · intro j τ hj
      exact mem_visitEvents_released hj

theorem visit_grows (t : TimerState) (id : TimerId) :
    t.wheel.slotmap.Grows (t.visit id).wheel.slotmap := by
  cases hl : t.wheel.lookup id with
  | none => rw [visit_of_stale hl]; exact Slotmap.Grows.refl _
  | some e => rw [visit_slotmap hl]; exact Slotmap.grows_erase _ _ _

theorem tick_grows (t : TimerState) : t.wheel.slotmap.Grows t.tick.wheel.slotmap :=
  tick_rule (fun u => t.wheel.slotmap.Grows u.wheel.slotmap)
    (fun u id hu => hu.trans (visit_grows u id))
    (fun u w hw hu => by rw [← hw] at hu; exact hu) (Slotmap.Grows.refl _)

theorem tick_idInv (t : TimerState) (h : IdInv t.wheel.slotmap t.trace) :
    IdInv t.tick.wheel.slotmap t.tick.trace :=
  tick_rule (fun u => IdInv u.wheel.slotmap u.trace) visit_idInv
    (fun u w hw hu => by rw [← hw] at hu; exact hu) h

theorem scheduleAt_slotmap (t : TimerState) (d : ℤ) (h : Option Handle)
    (p : Option StatePtr) (c : WaitState) :
    (t.scheduleAt d h p c).wheel.slotmap = (t.wheel.allocate d h p c).slotmap :=
  (HierarchicalTimerWheel.frame_place _ _ _).slotmap

theorem scheduleAt_idInv {t : TimerState} {d : ℤ} {h : Option Handle}
    {p : Option StatePtr} {c : WaitState} (hb : Bounded (t.scheduleAt d h p c).wheel.slotmap)
    (hi : IdInv t.wheel.slotmap t.trace) :
    IdInv (t.scheduleAt d h p c).wheel.slotmap (t.scheduleAt d h p c).trace := by
  rw [scheduleAt_slotmap] at hb ⊢
  exact hi.scheduling hb.nextIndex_lt hb.nextGeneration_lt
    (fun i g => ⟨encodeId i g, d, h, p, c⟩) (fun _ _ => rfl) t.wheel.currentTime

theorem cancel_of_stale {t : TimerState} {id : TimerId} (h : t.wheel.lookup id = none) :
    t.cancel id = t := by
  simp [cancel, HierarchicalTimerWheel.cancel, h]

theorem cancel_of_live {t : TimerState} {id : TimerId} {e : TimerEntry}
    (h : t.wheel.lookup id = some e) :
    t.cancel id = { t with wheel := t.wheel.release id, trace := .cancelled id :: t.trace } := by
  simp [cancel, HierarchicalTimerWheel.cancel, h]

theorem cancel_idInv (t : TimerState) (id : TimerId) (h : IdInv t.wheel.slotmap t.trace) :
    IdInv (t.cancel id).wheel.slotmap (t.cancel id).trace := by
  cases hl : t.wheel.lookup id with
  | none => rw [cancel_of_stale hl]; exact h
  | some e =>
    rw [cancel_of_live hl]
    exact h.ending [.cancelled id] hl rfl rfl (by simp) (by simp)

theorem step_grows {t u : TimerState} {op : TimerOp} (h : t.step op = some u) :
    t.wheel.slotmap.Grows u.wheel.slotmap := by
  cases op <;> simp only [step, Option.some.injEq] at h <;> subst h
  case schedule => rw [scheduleAt_slotmap]; exact Slotmap.grows_insert _ _
  case scheduleAt => rw [scheduleAt_slotmap]; exact Slotmap.grows_insert _ _
  case cancel id =>
    cases hl : t.wheel.lookup id with
    | none => rw [cancel_of_stale hl]; exact Slotmap.Grows.refl _
    | some e => rw [cancel_of_live hl]; exact Slotmap.grows_erase _ _ _
  case tick => exact tick_grows t
  case advanceTo target =>
    exact advanceTo_rule (fun u => t.wheel.slotmap.Grows u.wheel.slotmap)
      (fun u hu => hu.trans (tick_grows u)) target (Slotmap.Grows.refl _)
  case wake => exact Slotmap.Grows.refl _
  case drainReady => exact Slotmap.Grows.refl _
  case heap => exact Slotmap.Grows.refl _

theorem step_idInv {t u : TimerState} {op : TimerOp} (h : t.step op = some u)
    (hb : Bounded u.wheel.slotmap) (hi : IdInv t.wheel.slotmap t.trace) :
    IdInv u.wheel.slotmap u.trace := by
  cases op <;> simp only [step, Option.some.injEq] at h <;> subst h
  case schedule => exact scheduleAt_idInv hb hi
  case scheduleAt => exact scheduleAt_idInv hb hi
  case cancel id => exact cancel_idInv t id hi
  case tick => exact tick_idInv t hi
  case advanceTo target =>
    exact advanceTo_rule (fun u => IdInv u.wheel.slotmap u.trace) tick_idInv target hi
  case wake => exact hi
  case drainReady => exact hi
  case heap => exact hi

theorem Reaches.idInv {now : ℤ} {m : Heap} {ops : List TimerOp} {t : TimerState}
    (h : Reaches now m ops t) (hb : Bounded t.wheel.slotmap) : IdInv t.wheel.slotmap t.trace :=
  Transition.invariant_while (fun u => Bounded u.wheel.slotmap)
    (fun u => IdInv u.wheel.slotmap u.trace) (fun hs hu => hu.of_grows (step_grows hs))
    (fun hs _ hu hi => step_idInv hs hu hi) (fun _ => IdInv.empty) h hb

theorem not_mem_of_cancelled {t : TimerState} (h : IdInv t.wheel.slotmap t.trace) {id : TimerId}
    (hc : .cancelled id ∈ t.trace) {ev : TimerEvent} (hev : ev.processed = some id) :
    ev ∉ t.trace := by
  intro hmem
  have he := Transition.eq_of_nodup_filterMap h.ended_nodup hc hmem rfl
    (TimerEvent.ended_of_processed hev)
  subst he
  exact absurd hev (by simp [TimerEvent.processed])

theorem not_read_of_cancelled {t : TimerState} (h : IdInv t.wheel.slotmap t.trace) {id : TimerId}
    (hc : .cancelled id ∈ t.trace) (p : StatePtr) : .stateRead id p ∉ t.trace := by
  intro hr
  obtain ⟨ev, hmem, hev⟩ := List.mem_filterMap.mp (h.read id p hr).1
  exact not_mem_of_cancelled h hc hev hmem

theorem lookup_eq_none_of_ended {t : TimerState} (h : IdInv t.wheel.slotmap t.trace)
    {id : TimerId} (he : id ∈ t.trace.filterMap TimerEvent.ended) : t.wheel.lookup id = none := by
  by_contra hne
  exact ((h.live id).mp (Option.isSome_iff_ne_none.mpr hne)).2 he

/-- Ids are never zero and never handed out twice; `cancel` succeeds exactly on the timers
that are still waiting; a cancelled timer is never fired, nor is its state cell read; and an
id whose timer is over is inert, whoever owns its index by then. -/
theorem timer_ids_name_one_occupancy {now : ℤ} {m : Heap} {ops : List TimerOp}
    {t : TimerState} (h : Reaches now m ops t) (hb : Bounded t.wheel.slotmap) :
    (t.trace.filterMap TimerEvent.created).Nodup ∧
    (∀ id ∈ t.trace.filterMap TimerEvent.created, id ≠ 0) ∧
    (∀ id, (t.wheel.cancel id).1 = true ↔
      id ∈ t.trace.filterMap TimerEvent.created ∧ id ∉ t.trace.filterMap TimerEvent.ended) ∧
    (∀ id, .cancelled id ∈ t.trace →
      (∀ τ, .fired id τ ∉ t.trace) ∧ (∀ τ, .released id τ ∉ t.trace) ∧
        ∀ p, .stateRead id p ∉ t.trace) ∧
    (∀ id ∈ t.trace.filterMap TimerEvent.ended,
      t.wheel.cancel id = (false, t.wheel) ∧ t.visit id = t ∧ t.wheel.replace id = t.wheel) := by
  have hi := h.idInv hb
  refine ⟨hi.created_nodup, ?_, ?_, ?_, ?_⟩
  · rintro id hid rfl
    have hpos := (hi.key 0 hid).2.1
    simp [idGen] at hpos
  · intro id
    rw [HierarchicalTimerWheel.cancel_fst]
    exact hi.live id
  · intro id hc
    exact ⟨fun _ => not_mem_of_cancelled hi hc rfl, fun _ => not_mem_of_cancelled hi hc rfl,
      not_read_of_cancelled hi hc⟩
  · intro id he
    have hl := lookup_eq_none_of_ended hi he
    refine ⟨?_, visit_of_stale hl, ?_⟩
    · simp only [HierarchicalTimerWheel.cancel, hl]
    · simp only [HierarchicalTimerWheel.replace, hl]

/-- A timer is cancelled, its index is taken by the next one, and that one fires. -/
theorem timer_ids_name_one_occupancy_on_reuse :
    ∃ t, Reaches 0 ⟨fun _ => .pending, fun _ => .ok 0, fun _ => false⟩
        [.scheduleAt 1500000 (some 0) (some 0) .timedOut, .cancel (encodeId 0 1),
          .schedule 0 (some 1) (some 1) .ready, .tick] t ∧
      Bounded t.wheel.slotmap ∧ .fired (encodeId 0 2) 1000000 ∈ t.trace ∧
      (∀ τ, .fired (encodeId 0 1) τ ∉ t.trace) ∧
      t.wheel.cancel (encodeId 0 1) = (false, t.wheel) := by
  obtain ⟨t, hr, hb, hf, hc⟩ : ∃ t,
      Reaches 0 ⟨fun _ => .pending, fun _ => .ok 0, fun _ => false⟩
        [.scheduleAt 1500000 (some 0) (some 0) .timedOut, .cancel (encodeId 0 1),
          .schedule 0 (some 1) (some 1) .ready, .tick] t ∧
      Bounded t.wheel.slotmap ∧ .fired (encodeId 0 2) 1000000 ∈ t.trace ∧
      .cancelled (encodeId 0 1) ∈ t.trace := ⟨_, rfl, by decide, by decide, by decide⟩
  obtain ⟨-, -, -, hcancelled, hstale⟩ := timer_ids_name_one_occupancy hr hb
  exact ⟨t, hr, hb, hf, (hcancelled _ hc).1,
    (hstale _ (List.mem_filterMap.mpr ⟨_, hc, rfl⟩)).1⟩

end TimerState
end RainRuntime
