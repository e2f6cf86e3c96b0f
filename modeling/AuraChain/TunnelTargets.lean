import AuraChain.KeyedStreams
import AuraChain.OrdMap
import AuraChain.TracedRun
import AuraChain.TunnelReplay
import AuraChain.TunnelStream

/-! The exit node behind the decoding of its frames: the loop of one client and the
tasks of its targets, in any interleaving. What a target answers is read and thrown
away, so that nothing goes back to the client. -/

namespace AuraChain

open KeyedStreams

/-- A connection that was made for a stream, with the channel of its task. `writing`
is what `write_all` has still to write of a piece taken from the channel. -/
structure Target where
  streamId : UInt32
  targetHost : Bytes
  targetPort : UInt16
  channel : List Bytes
  writing : Option Bytes
  written : Bytes
  running : Bool

/-- The end of a task drops its channel. -/
def Target.stop (t : Target) : Target :=
  { t with channel := [], writing := none, running := false }

/-- The loop waits for the connection that the first frame of its input asks for, or
for room in a channel. -/
structure ExitNode where
  input : List TunnelFrame
  activeStreams : OrdMap UInt32 Nat
  targets : List Target
  connecting : Bool
  sending : Option (Nat × Bytes)

inductive ExitCall
  | frame
  | connected (connects : Bool)
  | sent
  | take (i : Nat)
  | write (i n : Nat)
  | writeFails (i : Nat)
  | ended (i : Nat)

namespace ExitNode

def channelCapacity : Nat := 100

def start (frames : List TunnelFrame) : ExitNode := ⟨frames, ∅, [], false, none⟩

def handle (node : ExitNode) (connects : Bool) : TunnelFrame → ExitNode
  | .connectTcp streamId targetHost targetPort =>
    if connects then
      { node with
        activeStreams := node.activeStreams.insert streamId node.targets.length
        targets := node.targets ++ [⟨streamId, targetHost, targetPort, [], none, [], true⟩] }
    else node
  | .data streamId data => match node.activeStreams[streamId]? with
    | some i => { node with sending := some (i, data) }
    | none => node
  | .close streamId => { node with activeStreams := node.activeStreams.erase streamId }
  | _ => node

def setTarget (node : ExitNode) (i : Nat) (t : Target) : ExitNode :=
  { node with targets := node.targets.set i t }

/-- The loop is through with the first frame of its input. It is emitted with the
outcome of a connection that it asks for. -/
def next (node : ExitNode) (connects : Bool) (frame : TunnelFrame) (input : List TunnelFrame) :
    ExitNode × List (TunnelFrame × Bool) :=
  ({ node.handle connects frame with input, connecting := false }, [(frame, connects)])

/-- A task takes no other piece, and does not see its target end, while it writes. -/
def step (node : ExitNode) : ExitCall → Option (ExitNode × List (TunnelFrame × Bool))
  | .frame => match node.sending, node.connecting, node.input with
    | none, false, .connectTcp .. :: _ => some ({ node with connecting := true }, [])
    | none, false, frame :: input => some (node.next false frame input)
    | _, _, _ => none
  | .connected connects => match node.connecting, node.input with
    | true, frame :: input => some (node.next connects frame input)
    | _, _ => none
  | .sent => node.sending.bind fun (i, data) => node.targets[i]?.bind fun t =>
    if t.running = false then some ({ node with sending := none }, [])
    else if t.channel.length < channelCapacity then
      some ({ node with sending := none }.setTarget i { t with channel := t.channel ++ [data] }, [])
    else none
  | .take i => node.targets[i]?.bind fun t => match t.writing, t.channel with
    | none, data :: channel => some (node.setTarget i { t with channel, writing := some data }, [])
    | _, _ => none
  | .write i n => node.targets[i]?.bind fun t => t.writing.map fun data =>
    (node.setTarget i { t with
      written := t.written ++ data.take n
      writing := if data.length ≤ n then none else some (data.drop n) }, [])
  | .writeFails i => node.targets[i]?.bind fun t => t.writing.map fun _ =>
    (node.setTarget i t.stop, [])
  | .ended i => node.targets[i]?.bind fun t =>
    if t.writing = none then some (node.setTarget i t.stop, []) else none

/-- What a handled frame does to the streams. -/
def op : TunnelFrame × Bool → Op UInt32 Bytes
  | (.connectTcp streamId _ _, true) => .start streamId
  | (.data streamId data, _) => .item streamId data
  | (.close streamId, _) => .stop streamId
  | _ => .idle

def address : TunnelFrame × Bool → Option (UInt32 × Bytes × UInt16)
  | (.connectTcp streamId targetHost targetPort, true) => some (streamId, targetHost, targetPort)
  | _ => none

/-- What the loop waits to put into the channel of a target. -/
def pending (node : ExitNode) (i : Nat) : List Bytes :=
  match node.sending with
  | some (j, data) => if j = i then [data] else []
  | none => []

/-- A target gets a beginning of what its stream carries; while its task runs, all
the rest of it is being written or waits in the channel or before it. -/
structure Serves (node : ExitNode) (i : Nat) (t : Target) (data : List Bytes) : Prop where
  capacity : t.channel.length ≤ channelCapacity
  dropped : t.running = false → t.channel = [] ∧ t.writing = none
  written : t.written <+: data.flatten
  waiting : t.running = true →
    t.written ++ (t.writing.toList ++ (t.channel ++ node.pending i)).flatten = data.flatten

structure Routes (frames : List TunnelFrame) (node : ExitNode) (log : List (TunnelFrame × Bool)) :
    Prop where
  order : log.map Prod.fst ++ node.input = frames
  names : Names (log.map op) fun streamId => node.activeStreams[streamId]?
  addresses : (node.targets.map fun t => (t.streamId, t.targetHost, t.targetPort)) =
    log.filterMap address
  count : (streams (log.map op)).length = node.targets.length
  sending : ∀ i data, node.sending = some (i, data) → i < node.targets.length
  connecting : node.connecting = true → node.sending = none ∧
    ∃ streamId targetHost targetPort input,
      node.input = .connectTcp streamId targetHost targetPort :: input
  serves : ∀ i t, node.targets[i]? = some t → ∃ rest,
    (streams (log.map op))[i]? = some (t.streamId, rest) ∧ node.Serves i t (carried t.streamId rest)

variable {frames : List TunnelFrame} {node node' : ExitNode} {log out : List (TunnelFrame × Bool)}
  {i : Nat} {t : Target} {data : List Bytes}

theorem added_op (names : UInt32 → Option Nat) (frame : TunnelFrame) (connects : Bool) :
    added names i (op (frame, connects)) = match frame with
      | .data streamId data => if names streamId = some i then [data] else []
      | _ => [] := by
  cases frame <;> cases connects <;> rfl

/-- A frame that is handled is waiting for the target of its stream. -/
theorem pending_handle (hnone : node.sending = none) (connects : Bool) (frame : TunnelFrame) :
    (node.handle connects frame).pending i =
      added (fun streamId => node.activeStreams[streamId]?) i (op (frame, connects)) := by
  rw [added_op]
  cases frame with
  | data streamId data =>
    dsimp only
    rw [handle]
    cases hactive : node.activeStreams[streamId]? with
    | none => simp [pending, hnone]
    | some j => simp [pending]
  | connectTcp streamId targetHost targetPort =>
    dsimp only
    rw [handle]
    split_ifs <;> simp [pending, hnone]
  | _ => simp [pending, handle, hnone]

theorem handle_targets (node : ExitNode) (connects : Bool) (frame : TunnelFrame) :
    (node.handle connects frame).targets = node.targets ++
      (address (frame, connects)).toList.map fun a => ⟨a.1, a.2.1, a.2.2, [], none, [], true⟩ := by
  cases frame with
  | connectTcp streamId targetHost targetPort => cases connects <;> simp [handle, address]
  | data streamId data =>
    rw [handle]
    cases node.activeStreams[streamId]? <;> simp [address]
  | _ => simp [handle, address]

theorem length_opened_op (e : TunnelFrame × Bool) :
    (opened (op e)).length = (address e).toList.length := by
  obtain ⟨frame, connects⟩ := e
  cases frame <;> cases connects <;> rfl

theorem handle_sending {j : Nat} {piece : Bytes} {frame : TunnelFrame} {connects : Bool}
    (h : Routes frames node log) (hnone : node.sending = none)
    (hsending : (node.handle connects frame).sending = some (j, piece)) : j < node.targets.length := by
  cases frame with
  | data streamId data =>
    rw [handle] at hsending
    cases hactive : node.activeStreams[streamId]? with
    | none => simp [hactive, hnone] at hsending
    | some k =>
      simp only [hactive, Option.some.injEq, Prod.mk.injEq] at hsending
      obtain ⟨rest, hrest, -⟩ := (h.names streamId k).mp hactive
      rw [← hsending.1, ← h.count]
      exact (List.getElem?_eq_some_iff.mp hrest).1
  | connectTcp streamId targetHost targetPort =>
    rw [handle] at hsending
    split_ifs at hsending <;> simp [hnone] at hsending
  | _ => simp [handle, hnone] at hsending

theorem handle_names (h : Routes frames node log) (connects : Bool) (frame : TunnelFrame) :
    Names ((log ++ [(frame, connects)]).map op)
      fun streamId => (node.handle connects frame).activeStreams[streamId]? := by
  rw [List.map_append, List.map_singleton]
  cases frame with
  | connectTcp streamId targetHost targetPort =>
    cases connects with
    | true =>
      refine h.names.snoc (fun key hkey => ?_) (fun key hkey hends => ?_) fun key hends => ?_
      · cases hkey
        rw [h.count]
        simp [handle]
      · exact absurd (congrArg Op.start (of_decide_eq_true hends)) hkey
      · have hne : streamId ≠ key := of_decide_eq_false hends
        simp [handle, OrdMap.lookup_insert, hne]
    | false =>
      refine h.names.snoc (fun key hkey => by cases hkey) (fun key _ hends => by cases hends)
        fun key _ => rfl
  | close streamId =>
    refine h.names.snoc (fun key hkey => by cases hkey) (fun key _ hends => ?_) fun key hends => ?_
    · have heq : streamId = key := of_decide_eq_true hends
      simp [handle, heq]
    · have hne : streamId ≠ key := of_decide_eq_false hends
      simp [handle, OrdMap.lookup_erase, hne]
  | data streamId data =>
    refine h.names.snoc (fun key hkey => by cases hkey) (fun key _ hends => by cases hends)
      fun key _ => ?_
    rw [handle]
    cases node.activeStreams[streamId]? <;> rfl
  | _ =>
    exact h.names.snoc (fun key hkey => by cases hkey) (fun key _ hends => by cases hends)
      fun key _ => rfl

theorem Serves.added (h : node.Serves i t data) (hnone : node.sending = none) {more : List Bytes}
    (hmore : node'.pending i = more) : node'.Serves i t (data ++ more) where
  capacity := h.capacity
  dropped := h.dropped
  written := by
    rw [List.flatten_append]
    exact h.written.trans (List.prefix_append _ _)
  waiting := by
    intro hrunning
    have hold := h.waiting hrunning
    rw [pending, hnone, List.append_nil] at hold
    have hflat : (data ++ more).flatten = data.flatten ++ more.flatten := List.flatten_append
    rw [hmore, hflat, ← hold]
    simp only [List.flatten_append, List.append_assoc]

theorem Serves.new {streamId : UInt32} {targetHost : Bytes} {targetPort : UInt16}
    (hnone : node.pending i = []) :
    node.Serves i ⟨streamId, targetHost, targetPort, [], none, [], true⟩ [] where
  capacity := Nat.zero_le _
  dropped := fun hrunning => by cases hrunning
  written := List.nil_prefix
  waiting := by
    intro _
    rw [hnone]
    rfl

theorem Routes.next (h : Routes frames node log) (hnone : node.sending = none)
    {frame : TunnelFrame} {input : List TunnelFrame} (hinput : node.input = frame :: input)
    (connects : Bool) :
    Routes frames (node.next connects frame input).1 (log ++ (node.next connects frame input).2) where
  order := by
    rw [List.map_append, List.append_assoc, ← h.order, hinput]
    rfl
  names := handle_names h connects frame
  addresses := by
    show ((node.handle connects frame).targets.map _) = _
    rw [handle_targets, List.map_append, h.addresses, List.filterMap_append]
    cases frame <;> cases connects <;> rfl
  count := by
    show _ = (node.handle connects frame).targets.length
    rw [ExitNode.next, List.map_append, List.map_singleton, length_streams_snoc, h.count, handle_targets,
      List.length_append, List.length_map, length_opened_op]
  sending := by
    intro j piece hsending
    refine (handle_sending h hnone hsending).trans_le ?_
    show _ ≤ (node.handle connects frame).targets.length
    rw [handle_targets, List.length_append]
    exact Nat.le_add_right _ _
  connecting h := by cases h
  serves := by
    intro i t ht
    change (node.handle connects frame).targets[i]? = some t at ht
    have hpending : (node.next connects frame input).1.pending i = _ :=
      pending_handle hnone connects frame
    rw [ExitNode.next, List.map_append, List.map_singleton]
    rw [handle_targets] at ht
    by_cases hi : i < node.targets.length
    · rw [List.getElem?_append_left hi] at ht
      obtain ⟨rest, hrest, hserves⟩ := h.serves i t ht
      refine ⟨rest ++ [op (frame, connects)], streams_snoc_old hrest _, ?_⟩
      rw [h.names.carried_snoc hrest]
      exact hserves.added hnone hpending
    · rw [List.getElem?_append_right (Nat.le_of_not_lt hi)] at ht
      obtain ⟨streamId, targetHost, targetPort, rfl, rfl⟩ : ∃ streamId targetHost targetPort,
          frame = .connectTcp streamId targetHost targetPort ∧ connects = true := by
        cases frame <;> cases connects <;> simp [address] at ht ⊢
      change [_][i - node.targets.length]? = some t at ht
      rw [List.getElem?_singleton] at ht
      split_ifs at ht with hfirst
      cases ht
      have hlast : i = (streams (log.map op)).length := by
        rw [h.count]
        omega
      exact ⟨[], streams_snoc_iff.mpr (.inr ⟨rfl, hlast, rfl⟩), .new hpending⟩

/-- A task changes its own target only, and what the loop waits for can only go. -/
theorem Routes.task (h : Routes frames node log) (ht : node.targets[i]? = some t) (t' : Target)
    (hstream : t'.streamId = t.streamId) (hhost : t'.targetHost = t.targetHost)
    (hport : t'.targetPort = t.targetPort) {sending : Option (Nat × Bytes)}
    (hsending : sending = node.sending ∨ sending = none)
    (hothers : ∀ j, j ≠ i → ExitNode.pending { node with sending } j = node.pending j)
    (hserves : ∀ data, node.Serves i t data → ExitNode.Serves { node with sending } i t' data) :
    Routes frames ({ node with sending }.setTarget i t') log where
  order := h.order
  names := h.names
  addresses := by
    rw [← h.addresses]
    refine List.ext_getElem? fun j => ?_
    show ((node.targets.set i t').map _)[j]? = _
    rw [List.getElem?_map, List.getElem?_map, List.getElem?_set]
    split_ifs with hj hlt
    · subst hj
      rw [ht]
      simp [hstream, hhost, hport]
    · subst hj
      rw [List.getElem?_eq_none (Nat.le_of_not_lt hlt)]
    · rfl
  count := by
    rw [h.count]
    exact List.length_set.symm
  sending := by
    intro j data hj
    rw [show (ExitNode.setTarget { node with sending } i t').targets.length = node.targets.length from
      List.length_set]
    rcases hsending with rfl | rfl
    · exact h.sending j data hj
    · cases hj
  connecting := by
    intro hconnecting
    obtain ⟨hnone, hinput⟩ := h.connecting hconnecting
    refine ⟨?_, hinput⟩
    rcases hsending with hsame | hsame
    · exact hsame.trans hnone
    · exact hsame
  serves := by
    intro j u hu
    change (node.targets.set i t')[j]? = some u at hu
    rw [List.getElem?_set] at hu
    split_ifs at hu with hj hlt
    · subst hj
      cases hu
      obtain ⟨rest, hrest, hold⟩ := h.serves i t ht
      refine ⟨rest, by rw [hstream]; exact hrest, ?_⟩
      rw [hstream]
      have hnew := hserves _ hold
      exact ⟨hnew.capacity, hnew.dropped, hnew.written, hnew.waiting⟩
    · obtain ⟨rest, hrest, hold⟩ := h.serves j u hu
      refine ⟨rest, hrest, hold.capacity, hold.dropped, hold.written, fun hrunning => ?_⟩
      have hwaiting := hold.waiting hrunning
      rw [← hothers j (Ne.symm hj)] at hwaiting
      exact hwaiting

theorem setTarget_self (ht : node.targets[i]? = some t) : node.setTarget i t = node := by
  have hset : node.targets.set i t = node.targets := by
    obtain ⟨hlt, rfl⟩ := List.getElem?_eq_some_iff.mp ht
    exact List.set_getElem_self hlt
  rw [setTarget, hset]

theorem Serves.running (h : node.Serves i t data) {piece : Bytes}
    (hpiece : piece ∈ t.channel ∨ t.writing = some piece) : t.running = true := by
  by_contra hn
  obtain ⟨hchannel, hwriting⟩ := h.dropped (Bool.eq_false_iff.mpr hn)
  rw [hchannel, hwriting] at hpiece
  simp at hpiece

/-- The next piece of the channel is what the stream goes on with. -/
theorem Serves.take (h : node.Serves i t data) {piece : Bytes} {channel : List Bytes}
    (hwriting : t.writing = none) (hchannel : t.channel = piece :: channel) :
    node.Serves i { t with channel, writing := some piece } data where
  capacity := by
    have hcapacity := h.capacity
    rw [hchannel, List.length_cons] at hcapacity
    exact Nat.le_of_succ_le hcapacity
  dropped := by
    intro hstop
    rw [h.running (.inl (hchannel ▸ List.mem_cons_self))] at hstop
    cases hstop
  written := h.written
  waiting := by
    intro hrunning
    have hold := h.waiting hrunning
    rw [hwriting, hchannel] at hold
    exact hold

/-- What is written of a piece goes on with the stream, and the rest of it is next. -/
theorem Serves.write (h : node.Serves i t data) {piece : Bytes} (hwriting : t.writing = some piece)
    (n : Nat) : node.Serves i { t with
      written := t.written ++ piece.take n
      writing := if piece.length ≤ n then none else some (piece.drop n) } data := by
  have hrunning := h.running (.inr hwriting)
  have hold := h.waiting hrunning
  rw [hwriting] at hold
  have hnext : t.written ++ piece.take n ++ ((if piece.length ≤ n then none
      else some (piece.drop n)).toList ++ (t.channel ++ node.pending i)).flatten = data.flatten := by
    rw [← hold]
    split_ifs with hall
    · rw [List.take_of_length_le hall]
      simp
    · simp only [Option.toList_some, List.singleton_append, List.flatten_cons, List.append_assoc]
      rw [← List.append_assoc (piece.take n), List.take_append_drop]
  refine ⟨h.capacity, fun hstop => ?_, ?_, fun _ => hnext⟩
  · rw [hrunning] at hstop
    cases hstop
  · rw [← hnext]
    exact List.prefix_append _ _

theorem Serves.stopped (h : node.Serves i t data) : node.Serves i t.stop data where
  capacity := Nat.zero_le _
  dropped := fun _ => ⟨rfl, rfl⟩
  written := h.written
  waiting := fun hrunning => by cases hrunning

theorem Routes.sent (h : Routes frames node log) {piece : Bytes} (hsending : node.sending = some (i, piece))
    (ht : node.targets[i]? = some t) (hs : node.step .sent = some (node', out)) :
    Routes frames node' (log ++ out) := by
  have hothers : ∀ j, j ≠ i → ExitNode.pending { node with sending := none } j = node.pending j := by
    intro j hj
    simp [pending, hsending, Ne.symm hj]
  simp only [step, hsending, ht, Option.bind_some] at hs
  split_ifs at hs with hstopped hroom
  · cases hs
    have hself : ExitNode.setTarget { node with sending := none } i t = { node with sending := none } :=
      setTarget_self ht
    rw [List.append_nil, ← hself]
    refine h.task ht t rfl rfl rfl (.inr rfl) hothers fun data hserves => ?_
    refine ⟨hserves.capacity, hserves.dropped, hserves.written, fun hrunning => ?_⟩
    rw [hstopped] at hrunning
    cases hrunning
  · cases hs
    rw [List.append_nil]
    refine h.task ht { t with channel := t.channel ++ [piece] } rfl rfl rfl (.inr rfl) hothers
      fun data hserves => ?_
    refine ⟨?_, fun hstop => absurd hstop hstopped, hserves.written, fun hrunning => ?_⟩
    · rw [List.length_append]
      exact hroom
    · have hwaiting := hserves.waiting hrunning
      have hmine : node.pending i = [piece] := by simp [pending, hsending]
      rw [hmine] at hwaiting
      simpa [pending] using hwaiting

theorem Routes.connects (h : Routes frames node log) (hnone : node.sending = none)
    {streamId : UInt32} {targetHost : Bytes} {targetPort : UInt16} {input : List TunnelFrame}
    (hinput : node.input = .connectTcp streamId targetHost targetPort :: input) :
    Routes frames { node with connecting := true } log where
  order := h.order
  names := h.names
  addresses := h.addresses
  count := h.count
  sending := h.sending
  connecting := fun _ => ⟨hnone, streamId, targetHost, targetPort, input, hinput⟩
  serves := by
    intro i t ht
    obtain ⟨rest, hrest, hserves⟩ := h.serves i t ht
    exact ⟨rest, hrest, hserves.capacity, hserves.dropped, hserves.written, hserves.waiting⟩

theorem Routes.frame (h : Routes frames node log) (hs : node.step .frame = some (node', out)) :
    Routes frames node' (log ++ out) := by
  cases hsending : node.sending with
  | some waiting => simp [ExitNode.step, hsending] at hs
  | none =>
    cases hconnecting : node.connecting with
    | true => simp [ExitNode.step, hsending, hconnecting] at hs
    | false =>
      cases hinput : node.input with
      | nil => simp [ExitNode.step, hsending, hconnecting, hinput] at hs
      | cons frame input =>
        cases frame with
        | connectTcp streamId targetHost targetPort =>
          have hstep : node.step .frame = some ({ node with connecting := true }, []) := by
            simp only [ExitNode.step, hsending, hconnecting, hinput]
          rw [hstep] at hs
          cases hs
          rw [List.append_nil]
          exact h.connects hsending hinput
        | _ =>
          simp only [ExitNode.step, hsending, hconnecting, hinput, Option.some.injEq] at hs
          have hnext := h.next hsending hinput false
          rwa [hs] at hnext

theorem Routes.step (h : Routes frames node log) {call : ExitCall}
    (hs : node.step call = some (node', out)) : Routes frames node' (log ++ out) := by
  cases call with
  | frame => exact h.frame hs
  | connected connects =>
    cases hconnecting : node.connecting with
    | false => simp [ExitNode.step, hconnecting] at hs
    | true =>
      obtain ⟨hnone, streamId, targetHost, targetPort, input, hinput⟩ := h.connecting hconnecting
      simp only [ExitNode.step, hconnecting, hinput, Option.some.injEq] at hs
      have hnext := h.next hnone hinput connects
      rwa [hs] at hnext
  | sent =>
    cases hsending : node.sending with
    | none => simp [ExitNode.step, hsending] at hs
    | some waiting =>
      obtain ⟨i, piece⟩ := waiting
      exact h.sent hsending (List.getElem?_eq_getElem (h.sending i piece hsending)) hs
  | take i =>
    obtain ⟨t, ht, hs⟩ := Option.bind_eq_some_iff.mp hs
    cases hwriting : t.writing with
    | some piece => simp [hwriting] at hs
    | none =>
      cases hchannel : t.channel with
      | nil => simp [hwriting, hchannel] at hs
      | cons piece channel =>
        simp only [hwriting, hchannel, Option.some.injEq, Prod.mk.injEq] at hs
        obtain ⟨rfl, rfl⟩ := hs
        rw [List.append_nil]
        exact h.task ht { t with channel, writing := some piece } rfl rfl rfl (.inl rfl)
          (fun _ _ => rfl) fun data hserves => hserves.take hwriting hchannel
  | write i n =>
    obtain ⟨t, ht, hs⟩ := Option.bind_eq_some_iff.mp hs
    obtain ⟨piece, hwriting, hs⟩ := Option.map_eq_some_iff.mp hs
    obtain ⟨rfl, rfl⟩ := Prod.mk.inj hs
    rw [List.append_nil]
    exact h.task ht { t with
        written := t.written ++ piece.take n
        writing := if piece.length ≤ n then none else some (piece.drop n) } rfl rfl rfl (.inl rfl)
      (fun _ _ => rfl) fun data hserves => hserves.write hwriting n
  | writeFails i =>
    obtain ⟨t, ht, hs⟩ := Option.bind_eq_some_iff.mp hs
    obtain ⟨piece, -, hs⟩ := Option.map_eq_some_iff.mp hs
    obtain ⟨rfl, rfl⟩ := Prod.mk.inj hs
    rw [List.append_nil]
    exact h.task ht t.stop rfl rfl rfl (.inl rfl) (fun _ _ => rfl) fun data hserves =>
      hserves.stopped
  | ended i =>
    obtain ⟨t, ht, hs⟩ := Option.bind_eq_some_iff.mp hs
    split_ifs at hs
    obtain ⟨rfl, rfl⟩ := Prod.mk.inj (Option.some.inj hs)
    rw [List.append_nil]
    exact h.task ht t.stop rfl rfl rfl (.inl rfl) (fun _ _ => rfl) fun data hserves =>
      hserves.stopped

theorem Routes.of_run
    (hrun : TracedRun ExitNode.step (fun _ _ => True) (start frames, []) (node, log)) :
    Routes frames node log := by
  refine TracedRun.invariant (P := fun node log => Routes frames node log) hrun ?_ ?_
  · exact ⟨rfl, .nil, rfl, rfl, fun i data hsending => (by cases hsending),
      fun hconnecting => (by cases hconnecting), fun i t ht => (by cases ht)⟩
  · exact fun _ _ _ _ _ hP _ hs => hP.step hs

/-- What the loop stands still for. -/
inductive Waits (node : ExitNode) : Prop
  | input (hinput : node.input = [])
  | connection (hconnecting : node.connecting = true) {streamId : UInt32} {targetHost : Bytes}
      {targetPort : UInt16} {input : List TunnelFrame}
      (hinput : node.input = .connectTcp streamId targetHost targetPort :: input)
  | room {i : Nat} {piece : Bytes} {t : Target} (hsending : node.sending = some (i, piece))
      (ht : node.targets[i]? = some t) (hrunning : t.running = true)
      (hfull : t.channel.length = channelCapacity)

/-- What waits goes into the channel, or the target is gone, unless its task has to
take something first. -/
theorem Routes.sent_or_full (h : Routes frames node log) {piece : Bytes}
    (hsending : node.sending = some (i, piece)) : (node.step .sent).isSome = true ∨ node.Waits := by
  have ht := List.getElem?_eq_getElem (h.sending i piece hsending)
  obtain ⟨rest, -, hserves⟩ := h.serves i _ ht
  simp only [ExitNode.step, hsending, ht, Option.bind_some]
  split_ifs with hstopped hroom
  · exact .inl rfl
  · exact .inl rfl
  · exact .inr (.room hsending ht (Bool.eq_true_of_not_eq_false hstopped)
      (Nat.le_antisymm hserves.capacity (Nat.le_of_not_lt hroom)))

theorem Routes.progress (h : Routes frames node log) : (node.step .frame).isSome = true ∨
    (node.step .sent).isSome = true ∨ node.Waits := by
  cases hsending : node.sending with
  | some waiting => exact .inr (h.sent_or_full hsending)
  | none =>
    cases hconnecting : node.connecting with
    | true =>
      obtain ⟨-, streamId, targetHost, targetPort, input, hinput⟩ := h.connecting hconnecting
      exact .inr (.inr (.connection hconnecting hinput))
    | false =>
      cases hinput : node.input with
      | nil => exact .inr (.inr (.input hinput))
      | cons frame input =>
        refine .inl ?_
        cases frame <;> simp [ExitNode.step, hsending, hconnecting, hinput]

/-- In every interleaving of the loop and the tasks, the targets are the ones that
were asked for and answered, each in its own stream. A target gets what its stream
carries, in order and from no other, as far as its task has got. The loop stands
still only without input, for a connection, or where a running task has a full
channel. -/
theorem targets_served (c : Crates) (cipher : TunnelCipher) (stream : Bytes)
    (hrun : TracedRun ExitNode.step (fun _ _ => True)
      (start (handleTunnelClient c cipher stream).1, []) (node, log)) :
    log.map Prod.fst ++ node.input = (handleTunnelClient c cipher stream).1 ∧
      (node.targets.map fun t => (t.streamId, t.targetHost, t.targetPort)) =
        log.filterMap address ∧
      (∀ i t, node.targets[i]? = some t → ∃ rest,
        (streams (log.map op))[i]? = some (t.streamId, rest) ∧
          node.Serves i t (carried t.streamId rest)) ∧
      ((node.step .frame).isSome = true ∨ (node.step .sent).isSome = true ∨ node.Waits) := by
  have hroutes := Routes.of_run hrun
  exact ⟨hroutes.order, hroutes.addresses, hroutes.serves, hroutes.progress⟩

/-- No byte that a browser sends comes to its target, as the client makes a second
cipher for them: the exit node reads nothing but the request for the connection. -/
theorem browser_bytes_lost (c : Crates) (sessionKey : FixedBytes 32) (streamId : UInt32)
    (target : SocksTarget) (chunks : List Chunk)
    (hrun : TracedRun ExitNode.step (fun _ _ => True)
      (start (handleTunnelClient c (.new sessionKey)
        ((handleSocks5Connection c sessionKey streamId target chunks).flatMap wireFrame)).1, [])
      (node, log)) :
    node.targets.length ≤ 1 ∧ ∀ t ∈ node.targets, t.streamId = streamId ∧
      t.targetHost = target.host ∧ t.targetPort = target.port ∧ t.written = [] := by
  rw [tunnel_session] at hrun
  have hroutes := Routes.of_run hrun
  have hframe : connectTcpFrame streamId target =
      .connectTcp streamId target.host target.port := rfl
  have horder := hroutes.order
  rw [hframe, List.append_eq_singleton_iff] at horder
  have hlog : log.filterMap address = [] ∨ log.filterMap address =
      [(streamId, target.host, target.port)] ∧ streams (log.map op) = [(streamId, [])] := by
    rcases horder with ⟨hnone, -⟩ | ⟨hone, -⟩
    · rw [List.map_eq_nil_iff.mp hnone]
      exact .inl rfl
    · obtain ⟨⟨frame, connects⟩, rfl, hconnect⟩ := List.map_eq_singleton_iff.mp hone
      cases hconnect
      cases connects
      · exact .inl rfl
      · exact .inr ⟨rfl, rfl⟩
  have haddresses := hroutes.addresses
  rcases hlog with hnone | ⟨hone, hstreams⟩
  · rw [hnone, List.map_eq_nil_iff] at haddresses
    rw [haddresses]
    exact ⟨Nat.zero_le 1, by simp⟩
  · rw [hone] at haddresses
    obtain ⟨t, htargets, hfields⟩ := List.map_eq_singleton_iff.mp haddresses
    simp only [Prod.mk.injEq] at hfields
    obtain ⟨hid, hhost, hport⟩ := hfields
    obtain ⟨rest, hrest, hserves⟩ := hroutes.serves 0 t (by rw [htargets]; rfl)
    have hempty : rest = [] := by
      rw [hstreams] at hrest
      cases hrest
      rfl
    rw [hempty] at hserves
    rw [htargets]
    refine ⟨Nat.le_refl 1, fun u hu => ?_⟩
    rw [List.mem_singleton.mp hu]
    exact ⟨hid, hhost, hport, List.prefix_nil.mp hserves.written⟩

end ExitNode

namespace TunnelTargets

open TunnelCipher

def frames : List TunnelFrame :=
  [connectTcpFrame 1 sampleTarget, .data 1 (ascii "GET "), .data 2 (ascii "lost"), .data 1 (ascii "/"),
    .close 1, .data 1 (ascii "late")]

/-- A client that keeps one cipher. -/
def stream : Bytes :=
  (encryptAll (Reference.crates []) (.new sampleKey) (frames.map TunnelFrame.toBytes)).flatMap wireFrame

/-- The second piece is written in two parts. -/
def calls : List ExitCall :=
  [.frame, .connected true, .frame, .sent, .frame, .take 0, .frame, .write 0 4, .sent, .frame, .frame,
    .take 0, .write 0 0, .write 0 1]

def log : List (TunnelFrame × Bool) :=
  (connectTcpFrame 1 sampleTarget, true) :: frames.tail.map fun frame => (frame, false)

theorem targets_served_closed : ∃ node : ExitNode,
    (node.targets.map fun t => (t.streamId, t.targetHost, t.targetPort)) =
        [(1, ascii "youtube.com", 443)] ∧
      ∃ t, node.targets[0]? = some t ∧ t.written = ascii "GET /" ∧
        node.Serves 0 t [ascii "GET ", ascii "/"] := by
  have hcalls : (runAll ExitNode.step (fun _ _ => True)
      (ExitNode.start (handleTunnelClient (Reference.crates []) (.new sampleKey) stream).1) calls).map
      (fun t => (t.2, t.1.targets.map fun t => (t.streamId, t.written))) =
    some (log, [(1, ascii "GET /")]) := by
    decide +kernel
  obtain ⟨⟨node, last⟩, hrun, hend⟩ := TracedRun.of_map hcalls
  have hlog : last = log := congrArg Prod.fst hend
  have htargets : (node.targets.map fun t => (t.streamId, t.written)) = [(1, ascii "GET /")] :=
    congrArg Prod.snd hend
  obtain ⟨-, haddresses, hserves, -⟩ := ExitNode.targets_served _ _ stream hrun
  obtain ⟨t, htarget, hwritten⟩ := List.map_eq_singleton_iff.mp htargets
  obtain ⟨hid, hbytes⟩ := Prod.mk.inj hwritten
  have ht : node.targets[0]? = some t := by rw [htarget]; rfl
  obtain ⟨rest, hrest, hserved⟩ := hserves 0 t ht
  rw [hlog, hid] at hrest
  cases hrest
  rw [hid] at hserved
  exact ⟨node, by rw [haddresses, hlog]; rfl, t, ht, hbytes, hserved⟩

theorem browser_bytes_lost_get : ∃ node : ExitNode, node.targets.length = 1 ∧
    ∀ t ∈ node.targets, t.streamId = 1 ∧ t.targetHost = sampleTarget.host ∧
      t.targetPort = sampleTarget.port ∧ t.written = [] := by
  have hcalls : (runAll ExitNode.step (fun _ _ => True)
      (ExitNode.start (handleTunnelClient (Reference.crates []) (.new sampleKey)
        ((handleSocks5Connection (Reference.crates []) sampleKey 1 sampleTarget
          [sampleChunk]).flatMap wireFrame)).1) [.frame, .connected true]).map
      (fun t => t.1.targets.length) = some 1 := by
    decide +kernel
  obtain ⟨⟨node, log⟩, hrun, hlen⟩ := TracedRun.of_map hcalls
  exact ⟨node, hlen, (ExitNode.browser_bytes_lost _ sampleKey 1 sampleTarget [sampleChunk] hrun).2⟩

end TunnelTargets

end AuraChain
