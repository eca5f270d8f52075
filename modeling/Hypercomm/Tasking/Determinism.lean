import Hypercomm.Tasking.Workgroup

/-! # Tasks do not depend on the order of messages

A task reads from one channel for each continuation. Between entry methods no task
has a buffered message for the continuation it waits for, so it has read as much as
it can, and the order in which different channels deliver does not matter.
-/

namespace Hypercomm.Tasking

open Transition

variable {σ Payload : Type*}

def Registry.reader (reg : Registry σ Payload) : Reader (Task σ) ContinuationId Payload where
  wants task := if task.active then some task.continuation else none
  read task payload := reg.continuation task.continuation task payload

namespace Workgroup

variable {reg : Registry σ Payload} {w w' : Workgroup σ Payload} {tid tid' : TaskId}
  {cid cid' : ContinuationId} {payload : Payload} {task task₀ : Task σ}

def invocations (w : Workgroup σ Payload) (tid : TaskId) : List (ContinuationId × Payload) :=
  (w.invoked.filter (·.1 = tid)).map Prod.snd

theorem buffered_buffer : (w.buffer tid cid payload).buffered tid' cid' =
    w.buffered tid' cid' ++ if tid = tid' ∧ cid = cid' then [payload] else [] := by
  by_cases h : tid = tid' ∧ cid = cid' <;> simp [buffered, buffer, isFor, h]

theorem filter_eraseP_of_ne {α : Type*} {p q : α → Bool} (h : ∀ a, q a = true → p a = false)
    (l : List α) : (l.eraseP q).filter p = l.filter p := by
  induction l with
  | nil => rfl
  | cons a l ih =>
    by_cases hq : q a = true
    · simp [hq, h a hq]
    · by_cases hp : p a <;> simp [hq, hp, ih]

theorem filter_eraseP_self {α : Type*} (p : α → Bool) (l : List α) :
    (l.eraseP p).filter p = (l.filter p).tail := by
  induction l with
  | nil => rfl
  | cons a l ih => by_cases hp : p a <;> simp [hp, ih]

theorem buffered_popFront_self :
    (w.popFront tid cid).buffered tid cid = (w.buffered tid cid).tail := by
  simp [buffered, popFront, filter_eraseP_self]

theorem buffered_popFront_of_ne (h : ¬ (tid' = tid ∧ cid' = cid)) :
    (w.popFront tid cid).buffered tid' cid' = w.buffered tid' cid' := by
  unfold buffered popFront
  rw [filter_eraseP_of_ne]
  intro b hb
  simp only [isFor, decide_eq_true_eq, decide_eq_false_iff_not] at hb ⊢
  rintro ⟨rfl, rfl⟩
  exact h hb

theorem length_popFront (h : w.buffered tid cid ≠ []) :
    (w.popFront tid cid).buffers.length + 1 = w.buffers.length := by
  obtain ⟨p, hp⟩ := List.exists_mem_of_ne_nil _ h
  obtain ⟨b, hb, -⟩ := List.mem_map.mp hp
  obtain ⟨hm, hf⟩ := List.mem_filter.mp hb
  have := List.length_eraseP_of_mem hm hf
  have hpos := List.length_pos_of_mem hm
  simp only [popFront]
  omega

/-- The task has read its invocations from the channels, and what is left of them is
buffered. -/
structure Reads (reg : Registry σ Payload) (w : Workgroup σ Payload) (tid : TaskId)
    (task₀ : Task σ) (ch : ContinuationId → List Payload) (task : Task σ) : Prop where
  reads : reg.reader.readAll task₀ (w.invocations tid) = some task
  stored : w.tasks tid = if task.active then some task else none
  channel : ∀ cid, ch cid = Reader.received cid (w.invocations tid) ++ w.buffered tid cid

/-- Nothing about another task changed. -/
def SameBut (tid : TaskId) (w w' : Workgroup σ Payload) : Prop :=
  ∀ tid' ≠ tid, w'.tasks tid' = w.tasks tid' ∧ w'.invocations tid' = w.invocations tid' ∧
    ∀ cid, w'.buffered tid' cid = w.buffered tid' cid

theorem SameBut.refl : SameBut tid w w := fun _ _ => ⟨rfl, rfl, fun _ => rfl⟩

theorem SameBut.trans {w'' : Workgroup σ Payload} (h : SameBut tid w w') (h' : SameBut tid w' w'') :
    SameBut tid w w'' := fun t ht =>
  ⟨(h' t ht).1.trans (h t ht).1, (h' t ht).2.1.trans (h t ht).2.1,
    fun c => ((h' t ht).2.2 c).trans ((h t ht).2.2 c)⟩

def invoke (reg : Registry σ Payload) (w : Workgroup σ Payload) (tid : TaskId) (task : Task σ)
    (payload : Payload) : Workgroup σ Payload :=
  { w with
    active := tid
    tasks := Function.update w.tasks tid (if (reg.reader.read task payload).active then
      some (reg.reader.read task payload) else none)
    invoked := w.invoked ++ [(tid, task.continuation, payload)] }

theorem accept_of_wants (ht : w.tasks tid = some task) :
    w.accept reg tid task.continuation payload =
      some (w.invoke reg tid task payload, (reg.reader.read task payload).active) := by
  simp only [accept, ht, Option.bind_some, if_true]
  rfl

theorem accept_of_rejects (h : ∀ task, w.tasks tid = some task → task.continuation ≠ cid) :
    w.accept reg tid cid payload = none := by
  cases ht : w.tasks tid with
  | none => simp [accept, ht]
  | some task => simp [accept, ht, h task ht]

theorem invocations_invoke : (w.invoke reg tid task payload).invocations tid =
    w.invocations tid ++ [(task.continuation, payload)] := by
  simp [invocations, invoke]

@[simp] theorem invocations_popFront :
    (w.popFront tid cid).invocations tid' = w.invocations tid' := rfl

@[simp] theorem buffered_invoke :
    (w.invoke reg tid task payload).buffered tid' cid = w.buffered tid' cid := rfl

theorem sameBut_invoke : SameBut tid w (w.invoke reg tid task payload) := fun t ht =>
  ⟨by simp [invoke, ht], by simp [invocations, invoke, ht.symm], fun _ => rfl⟩

theorem sameBut_popFront : SameBut tid w (w.popFront tid cid) := fun _ ht =>
  ⟨rfl, rfl, fun _ => buffered_popFront_of_ne fun h => ht h.1⟩

theorem sameBut_buffer : SameBut tid w (w.buffer tid cid payload) := fun t ht =>
  ⟨rfl, rfl, fun c => by simp [buffered_buffer, ht.symm]⟩

section Reads

variable {ch : ContinuationId → List Payload}

theorem Reads.wants (h : task.active = true) : reg.reader.wants task = some task.continuation := by
  simp [Registry.reader, h]

theorem Reads.invoke (payload : Payload) (h : Reads reg w tid task₀ ch task)
    (ha : task.active = true) (hb : w.buffered tid task.continuation = []) :
    Reads reg (w.invoke reg tid task payload) tid task₀
      (fun c => ch c ++ if task.continuation = c then [payload] else [])
      (reg.reader.read task payload) where
  reads := by rw [invocations_invoke]; exact Reader.readAll_concat h.reads (wants ha)
  stored := by simp [Workgroup.invoke]
  channel c := by
    rw [invocations_invoke, h.channel c, Reader.received_append, Reader.received_singleton]
    by_cases hc : task.continuation = c
    · subst hc; simp [hb]
    · simp [hc]

theorem Reads.replay (h : Reads reg w tid task₀ ch task) (ha : task.active = true)
    {rest : List Payload} (hb : w.buffered tid task.continuation = payload :: rest) :
    Reads reg ((w.invoke reg tid task payload).popFront tid task.continuation) tid task₀ ch
      (reg.reader.read task payload) where
  reads := by
    rw [invocations_popFront, invocations_invoke]
    exact Reader.readAll_concat h.reads (wants ha)
  stored := by simp [Workgroup.invoke, popFront]
  channel c := by
    rw [invocations_popFront, invocations_invoke, h.channel c, Reader.received_append,
      Reader.received_singleton]
    by_cases hc : task.continuation = c
    · subst hc
      simp [buffered_popFront_self, hb]
    · rw [buffered_popFront_of_ne fun h => hc h.2.symm]
      simp [hc]

/-- No live task has a buffered message for the continuation it waits for. -/
def Awaiting (w : Workgroup σ Payload) (tid : TaskId) : Prop :=
  ∀ task, w.tasks tid = some task → w.buffered tid task.continuation = []

/-- Replaying ends when the task stops or waits for a message that is not buffered:
each turn takes a message out of the buffers. -/
theorem Reads.tryContinue {n : ℕ} (h : Reads reg w tid task₀ ch task) (htid : w.active = tid)
    (ha : task.active = true) (hn : w.buffers.length ≤ n) :
    (∃ task', Reads reg (w.tryContinue reg n) tid task₀ ch task') ∧
      (w.tryContinue reg n).Awaiting tid ∧ SameBut tid w (w.tryContinue reg n) := by
  have ht : w.tasks tid = some task := by simp [h.stored, ha]
  have hstop : w.buffered tid task.continuation = [] → w.Awaiting tid := fun hb t htt => by
    obtain rfl := Option.some.inj (ht.symm.trans htt)
    exact hb
  induction n generalizing w task with
  | zero =>
    have hb : w.buffers = [] := List.length_eq_zero_iff.mp (Nat.le_zero.mp hn)
    exact ⟨⟨task, h⟩, hstop (by simp [buffered, hb]), .refl⟩
  | succ n ih =>
    subst htid
    cases hb : w.buffered w.active task.continuation with
    | nil =>
      have he : Workgroup.tryContinue reg (n + 1) w = w := by
        simp [Workgroup.tryContinue, ht, hb]
      rw [he]
      exact ⟨⟨task, h⟩, hstop hb, .refl⟩
    | cons payload rest =>
      set w₁ := (w.invoke reg w.active task payload).popFront w.active task.continuation with hw₁
      have hr := h.replay ha hb
      have hs : SameBut w.active w w₁ := sameBut_invoke.trans sameBut_popFront
      by_cases hk : (reg.reader.read task payload).active = true
      · have he : Workgroup.tryContinue reg (n + 1) w = w₁.tryContinue reg n := by
          simp [Workgroup.tryContinue, ht, hb, accept_of_wants ht, hk, hw₁]
        have hl : w₁.buffers.length + 1 = w.buffers.length :=
          length_popFront (w := w.invoke reg w.active task payload) (by simp [hb])
        have ht₁ : w₁.tasks w.active = some (reg.reader.read task payload) := by
          rw [hr.stored, if_pos hk]
        obtain ⟨hex, haw, hsb⟩ := ih hr rfl hk (hw₁ ▸ by omega) ht₁ fun hbn t htt => by
          obtain rfl := Option.some.inj (ht₁.symm.trans htt)
          exact hbn
        rw [he]
        exact ⟨hex, haw, hs.trans hsb⟩
      · have he : Workgroup.tryContinue reg (n + 1) w = w₁ := by
          simp [Workgroup.tryContinue, ht, hb, accept_of_wants ht, hk, hw₁]
        rw [he]
        refine ⟨⟨_, hr⟩, fun t htt => ?_, hs⟩
        rw [hr.stored, if_neg hk] at htt
        simp at htt

end Reads

def creations (tid : TaskId) (es : List (Event Payload)) : List (TaskKind × Payload) :=
  es.filterMap fun
    | .create t kind payload => if t = tid then some (kind, payload) else none
    | _ => none

def messages (tid : TaskId) (es : List (Event Payload)) (cid : ContinuationId) : List Payload :=
  es.filterMap fun
    | .resume t c payload => if t = tid ∧ c = cid then some payload else none
    | _ => none

/-- Nothing but buffering happens for a task before its creation; afterwards it has
read what it can. -/
structure Follows (reg : Registry σ Payload) (es : List (Event Payload)) (w : Workgroup σ Payload)
    (tid : TaskId) : Prop where
  before : creations tid es = [] → w.tasks tid = none ∧ w.invocations tid = [] ∧
    ∀ cid, w.buffered tid cid = messages tid es cid
  after : ∀ kind payload, creations tid es = [(kind, payload)] →
    ∃ task, Reads reg w tid (reg.creator kind payload) (messages tid es) task
  awaiting : w.Awaiting tid

section Step

variable {es : List (Event Payload)} {kind : TaskKind}

theorem creations_concat_resume :
    creations tid (es ++ [.resume tid' cid payload]) = creations tid es := by
  simp [creations]

theorem messages_concat_create :
    messages tid (es ++ [.create tid' kind payload]) = messages tid es := by
  funext cid; simp [messages]

theorem messages_concat_resume (c : ContinuationId) :
    messages tid (es ++ [.resume tid cid payload]) c =
      messages tid es c ++ if cid = c then [payload] else [] := by
  by_cases h : cid = c <;> simp [messages, h]

theorem Follows.sameBut (h : Follows reg es w tid') (hs : SameBut tid w w') (hne : tid' ≠ tid)
    {e : Event Payload} (hc : creations tid' (es ++ [e]) = creations tid' es)
    (hm : messages tid' (es ++ [e]) = messages tid' es) : Follows reg (es ++ [e]) w' tid' := by
  obtain ⟨ht, hi, hb⟩ := hs tid' hne
  refine ⟨fun h0 => ?_, fun kind payload h0 => ?_, fun task htask => ?_⟩
  · obtain ⟨h1, h2, h3⟩ := h.before (hc ▸ h0)
    exact ⟨ht.trans h1, hi.trans h2, fun c => by rw [hb, h3, hm]⟩
  · obtain ⟨task, hr⟩ := h.after kind payload (hc ▸ h0)
    refine ⟨task, by rw [hi]; exact hr.reads, ht.trans hr.stored, fun c => ?_⟩
    rw [hm, hi, hb]
    exact hr.channel c
  · rw [hb]
    exact h.awaiting task (ht ▸ htask)

theorem Follows.buffer (h : Follows reg es w tid)
    (hrej : ∀ task, w.tasks tid = some task → task.continuation ≠ cid) :
    Follows reg (es ++ [.resume tid cid payload]) (w.buffer tid cid payload) tid := by
  have hb : ∀ c, (w.buffer tid cid payload).buffered tid c =
      w.buffered tid c ++ if cid = c then [payload] else [] := fun c => by simp [buffered_buffer]
  refine ⟨fun h0 => ?_, fun kind p h0 => ?_, fun task htask => ?_⟩
  · obtain ⟨h1, h2, h3⟩ := h.before (creations_concat_resume ▸ h0)
    exact ⟨h1, h2, fun c => by rw [hb, h3, messages_concat_resume]⟩
  · obtain ⟨task, hr⟩ := h.after kind p (creations_concat_resume ▸ h0)
    refine ⟨task, hr.reads, hr.stored, fun c => ?_⟩
    rw [messages_concat_resume, hr.channel c, hb, List.append_assoc]
    rfl
  · rw [hb, h.awaiting task htask, if_neg (hrej task htask).symm, List.append_nil]

theorem Follows.resume (cid : ContinuationId) (payload : Payload) (h : Follows reg es w tid)
    (hu : (creations tid es).length ≤ 1) :
    Follows reg (es ++ [.resume tid cid payload]) (w.resume reg tid cid payload) tid ∧
      SameBut tid w (w.resume reg tid cid payload) := by
  by_cases hrej : ∀ task, w.tasks tid = some task → task.continuation ≠ cid
  · simp only [Workgroup.resume, accept_of_rejects hrej]
    exact ⟨h.buffer hrej, sameBut_buffer⟩
  · push Not at hrej
    obtain ⟨task, ht, rfl⟩ := hrej
    have hb := h.awaiting task ht
    obtain ⟨kind, p, hc⟩ : ∃ kind p, creations tid es = [(kind, p)] := by
      cases hc : creations tid es with
      | nil => simp [(h.before hc).1] at ht
      | cons x l =>
        obtain rfl : l = [] := by simpa [hc] using hu
        exact ⟨x.1, x.2, rfl⟩
    obtain ⟨task', hr⟩ := h.after kind p hc
    obtain ⟨ha, rfl⟩ : task'.active = true ∧ task' = task := by
      have := hr.stored.symm.trans ht
      split at this <;> simp_all
    have hinv := hr.invoke payload ha hb
    simp only [← messages_concat_resume] at hinv
    have hcr : ∀ {w'' : Workgroup σ Payload} {task''}, Reads reg w'' tid (reg.creator kind p)
        (messages tid (es ++ [.resume tid task'.continuation payload])) task'' →
        w''.Awaiting tid →
        Follows reg (es ++ [.resume tid task'.continuation payload]) w'' tid := by
      intro w'' task'' hr' haw
      refine ⟨fun h0 => ?_, fun k q h0 => ?_, haw⟩
      · rw [creations_concat_resume, hc] at h0; simp at h0
      · rw [creations_concat_resume, hc] at h0
        obtain ⟨rfl, rfl⟩ := by simpa using h0
        exact ⟨task'', hr'⟩
    by_cases hk : (reg.reader.read task' payload).active = true
    · obtain ⟨⟨t, hrt⟩, haw, hs⟩ := hinv.tryContinue rfl hk (Nat.le_refl _)
      simp only [Workgroup.resume, accept_of_wants ht, hk, if_true]
      exact ⟨hcr hrt haw, sameBut_invoke.trans hs⟩
    · simp only [Workgroup.resume, accept_of_wants ht, hk, Bool.false_eq_true, if_false]
      refine ⟨hcr hinv fun t htt => ?_, sameBut_invoke⟩
      rw [hinv.stored, if_neg hk] at htt
      simp at htt

theorem Follows.create (h : Follows reg es w tid) (hc : creations tid es = [])
    (hs : w.create reg tid kind payload = some w') :
    Follows reg (es ++ [.create tid kind payload]) w' tid ∧ SameBut tid w w' := by
  obtain ⟨hnone, hinv, hbuf⟩ := h.before hc
  have hcr : creations tid (es ++ [.create tid kind payload]) = [(kind, payload)] := by
    have := hc
    simp_all [creations]
  have hfol : ∀ {w'' : Workgroup σ Payload} {task}, Reads reg w'' tid (reg.creator kind payload)
      (messages tid es) task → w''.Awaiting tid →
      Follows reg (es ++ [.create tid kind payload]) w'' tid := by
    intro w'' task hr haw
    refine ⟨fun h0 => by simp [hcr] at h0, fun k q h0 => ?_, haw⟩
    obtain ⟨rfl, rfl⟩ := by simpa [hcr] using h0
    exact ⟨task, by rw [messages_concat_create]; exact hr⟩
  cases hk : (reg.creator kind payload).active with
  | false =>
    obtain rfl : { w with active := tid } = w' := by simpa [Workgroup.create, hk] using hs
    have hr : Reads reg { w with active := tid } tid (reg.creator kind payload) (messages tid es)
        (reg.creator kind payload) := by
      refine ⟨?_, by simpa [hk] using hnone, fun c => ?_⟩
      · change reg.reader.readAll _ (w.invocations tid) = _
        rw [hinv]; rfl
      · change _ = Reader.received c (w.invocations tid) ++ w.buffered tid c
        simp [hinv, hbuf]
    refine ⟨hfol hr fun t ht => ?_, fun _ _ => ⟨rfl, rfl, fun _ => rfl⟩⟩
    exact absurd (hnone.symm.trans ht) (by simp)
  | true =>
    set w₁ : Workgroup σ Payload := { w with
      active := tid
      tasks := Function.update w.tasks tid (some (reg.creator kind payload)) } with hw₁
    obtain rfl : w₁.tryContinue reg w.buffers.length = w' := by
      simpa [Workgroup.create, hk, hnone, hw₁] using hs
    have hr : Reads reg w₁ tid (reg.creator kind payload) (messages tid es)
        (reg.creator kind payload) := by
      refine ⟨?_, by simp [hw₁, hk], fun c => ?_⟩
      · change reg.reader.readAll _ (w.invocations tid) = _
        rw [hinv]; rfl
      · change _ = Reader.received c (w.invocations tid) ++ w.buffered tid c
        simp [hinv, hbuf]
    obtain ⟨⟨t, hrt⟩, haw, hsb⟩ := hr.tryContinue (n := w.buffers.length) rfl hk (Nat.le_refl _)
    have hs₁ : SameBut tid w w₁ := fun t ht => ⟨by simp [hw₁, ht], rfl, fun _ => rfl⟩
    exact ⟨hfol hrt haw, hs₁.trans hsb⟩

theorem Follows.step (h : ∀ tid, Follows reg es w tid) {e : Event Payload}
    (hu : ∀ tid, (creations tid (es ++ [e])).length ≤ 1) (hs : w.step reg e = some w')
    (tid : TaskId) : Follows reg (es ++ [e]) w' tid := by
  cases e with
  | create t kind payload =>
    have hc : creations t es = [] := by
      have := hu t
      simpa [creations] using this
    obtain ⟨hf, hsb⟩ := (h t).create hc hs
    rcases eq_or_ne tid t with rfl | hne
    · exact hf
    · exact (h tid).sameBut hsb hne (by simp [creations, hne.symm]) messages_concat_create
  | resume t cid payload =>
    obtain rfl : w.resume reg t cid payload = w' := Option.some.inj hs
    have hl : (creations t es).length ≤ 1 := creations_concat_resume ▸ hu t
    obtain ⟨hf, hsb⟩ := (h t).resume cid payload hl
    rcases eq_or_ne tid t with rfl | hne
    · exact hf
    · exact (h tid).sameBut hsb hne creations_concat_resume
        (by funext c; simp [messages, hne.symm])
  | pup garbage =>
    obtain rfl : { w with active := garbage } = w' := Option.some.inj hs
    have hsb : SameBut ⟨tid.host + 1, tid.task⟩ w { w with active := garbage } :=
      fun _ _ => ⟨rfl, rfl, fun _ => rfl⟩
    refine (h tid).sameBut hsb (fun heq => ?_) (by simp [creations]) (by funext c; simp [messages])
    have := congrArg TaskId.host heq
    simp at this

end Step

/-- A fresh element: the constructor leaves `active_` as it is. -/
def init (garbage : TaskId) : Workgroup σ Payload := { active := garbage }

theorem follows_init (garbage tid : TaskId) :
    Follows reg [] (init garbage : Workgroup σ Payload) tid where
  before _ := ⟨rfl, rfl, fun _ => rfl⟩
  after _ _ h := by simp [creations] at h
  awaiting _ _ := rfl

theorem follows_of_run {es : List (Event Payload)} {garbage : TaskId}
    (h : Run (ofFun (step reg)) (init garbage) es w)
    (hu : ∀ tid, (creations tid es).length ≤ 1) (tid : TaskId) : Follows reg es w tid := by
  induction h generalizing tid with
  | nil => exact follows_init garbage tid
  | @snoc w w' es e _ hs ih =>
    refine Follows.step (ih fun t => ?_) hu hs tid
    have := hu t
    simp only [creations, List.filterMap_append, List.length_append] at this ⊢
    omega

/-- Two runs that receive the same creations, and the same messages in the same order
for each continuation of each task, invoke the same continuations with the same
payloads in every task. Each message is invoked at most once, and no live task has a
buffered message for the continuation it waits for. -/
theorem invocations_order_independent {es₁ es₂ : List (Event Payload)} {g₁ g₂ : TaskId}
    {w₁ w₂ : Workgroup σ Payload} (h₁ : Run (ofFun (step reg)) (init g₁) es₁ w₁)
    (h₂ : Run (ofFun (step reg)) (init g₂) es₂ w₂)
    (hu : ∀ tid, (creations tid es₁).length ≤ 1)
    (hc : ∀ tid, creations tid es₁ = creations tid es₂)
    (hm : ∀ tid cid, messages tid es₁ cid = messages tid es₂ cid) :
    (∀ tid, w₁.invocations tid = w₂.invocations tid) ∧
    (∀ tid cid, Reader.received cid (w₁.invocations tid) ++ w₁.buffered tid cid =
      messages tid es₁ cid) ∧
    ∀ tid task, w₁.tasks tid = some task → w₁.buffered tid task.continuation = [] := by
  have hf₁ := follows_of_run h₁ hu
  have hf₂ := follows_of_run h₂ (fun tid => hc tid ▸ hu tid)
  have hex : ∀ {es w tid task₀ task}, Follows reg es w tid →
      Reads reg w tid task₀ (messages tid es) task →
      Reader.Exhausts reg.reader (messages tid es) task₀ (w.invocations tid) task := by
    intro es w tid task₀ task hf hr
    refine ⟨hr.reads, fun c => ⟨_, (hr.channel c).symm⟩, fun c hw => ?_⟩
    have ha : task.active = true ∧ task.continuation = c := by
      simpa [Registry.reader] using hw
    rw [hr.channel c, ← ha.2, hf.awaiting task (by rw [hr.stored, if_pos ha.1]), List.append_nil]
  refine ⟨fun tid => ?_, fun tid cid => ?_, fun tid => (hf₁ tid).awaiting⟩
  · cases hcr : creations tid es₁ with
    | nil => rw [((hf₁ tid).before hcr).2.1, ((hf₂ tid).before (hc tid ▸ hcr)).2.1]
    | cons x l =>
      obtain rfl : l = [] := by simpa [hcr] using hu tid
      obtain ⟨t₁, hr₁⟩ := (hf₁ tid).after x.1 x.2 hcr
      obtain ⟨t₂, hr₂⟩ := (hf₂ tid).after x.1 x.2 (hc tid ▸ hcr)
      have hx₂ := hex (hf₂ tid) hr₂
      rw [← show messages tid es₁ = messages tid es₂ from funext (hm tid)] at hx₂
      exact (hex (hf₁ tid) hr₁).unique hx₂
  · cases hcr : creations tid es₁ with
    | nil =>
      obtain ⟨-, hi, hb⟩ := (hf₁ tid).before hcr
      simp [hi, hb]
    | cons x l =>
      obtain rfl : l = [] := by simpa [hcr] using hu tid
      obtain ⟨t₁, hr₁⟩ := (hf₁ tid).after x.1 x.2 hcr
      exact (hr₁.channel cid).symm

/-- A task that reads continuation one and then continuation two: the second message
may come first, and the element may migrate in between. -/
theorem invocations_eq_of_reordered : ∃ w₁ w₂ : Workgroup ℕ ℕ,
    w₁.invocations ⟨0, 0⟩ = [(1, 5), (2, 6)] ∧ ∀ tid, w₁.invocations tid = w₂.invocations tid := by
  let reg : Registry ℕ ℕ :=
    { creator := fun _ p => { state := p, continuation := 1 }
      continuation := fun c t p =>
        { state := t.state + p, active := c = 1, continuation := c + 1 } }
  have h₁ : Run (ofFun (step reg)) (init ⟨0, 0⟩)
      [.create ⟨0, 0⟩ 0 0, .resume ⟨0, 0⟩ 1 5, .resume ⟨0, 0⟩ 2 6] _ :=
    .snoc (.snoc (.snoc .nil rfl) rfl) rfl
  have h₂ : Run (ofFun (step reg)) (init ⟨0, 0⟩)
      [.resume ⟨0, 0⟩ 2 6, .create ⟨0, 0⟩ 0 0, .pup ⟨9, 9⟩, .resume ⟨0, 0⟩ 1 5] _ :=
    .snoc (.snoc (.snoc (.snoc .nil rfl) rfl) rfl) rfl
  refine ⟨_, _, rfl, (invocations_order_independent h₁ h₂ (fun tid => ?_) (fun tid => ?_)
    fun tid cid => ?_).1⟩
  · simp only [creations, List.filterMap_cons, List.filterMap_nil]
    split <;> simp
  · rfl
  · rcases eq_or_ne cid 1 with rfl | h1
    · simp [messages, List.filterMap_cons]
    · simp [messages, List.filterMap_cons, h1.symm]

end Workgroup

end Hypercomm.Tasking
