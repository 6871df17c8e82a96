import MediaGraph.Proofs.Iterations

/-! Declared pads where callers put pipes of their own on them.
Connecting asks neither how many pads an operation has nor what they carry, and it only works while a
chain has no outputs. So the connected pipes come first, and behind them the graph keeps to what is
declared. -/
namespace MediaGraph

/-- The pipes that a call puts on the pads of a chain. -/
def Event.given (chain : ChainId) : Event → List PipeId
  | ⟨_,.connect target pipes,_,_⟩ => if target = chain then pipes else []
  | _ => []

theorem Event.given_eq_nil {event : Event} {chain : ChainId} (other : event.connected? ≠ some chain) :
    event.given chain = [] := by
  obtain ⟨_,c,_,_⟩ := event
  cases c <;> simp_all [connected?,given]

namespace Session

def Suits (s : Session) (pads : Pads) (n p : Nat) : Prop :=
  pads.media n ≠ .unknown → (s.pipe p).media = pads.media n

/-- A stage has no more outputs than declared pads, and each carries what its pad declares. -/
def Respects (s : Session) (i : Nat) (pads : Pads) (count : Nat) : Prop :=
  (s.stage i).outputs.size ≤ count ∧
    ∀ n p : Nat, (s.stage i).outputs[n]? = some p → s.Suits pads n p

/-- What is on the pads of a stage that declares `count` of them and was given pipes for the first ones. -/
structure Allotted (s : Session) (i : Nat) (pads : Pads) (count : Nat) (given : List PipeId) :
    Prop where
  first : given.map PipeId.index <+: (s.stage i).outputs.toList
  behind : ∀ n p : Nat, given.length ≤ n → (s.stage i).outputs[n]? = some p →
    n < count ∧ s.Suits pads n p
  few : (s.stage i).outputs.size ≤ max count given.length
  respects : s.Respects i pads count ↔
    given.length ≤ count ∧ ∀ n id, given[n]? = some id → s.Suits pads n id.index

section Stages
variable {s : Session} {i count : Nat} {chain : ChainId} {pads : Pads} {given : List PipeId}

theorem OnPads.first (here : s.OnPads chain given) :
    given.map PipeId.index <+: (s.stage chain.index).outputs.toList := by
  refine List.prefix_iff_getElem?.mpr fun n bound => ?_
  have found := (here n _ (List.getElem?_eq_getElem (by simpa using bound))).pad
  simpa using found

theorem Allotted.of_declared (first : given.map PipeId.index <+: (s.stage i).outputs.toList)
    (declared : s.DeclaredFrom i given.length) (held : s.padsAt i = some pads)
    (fixed : pads.count = some count) : s.Allotted i pads count given := by
  have behind (n p : Nat) (past : given.length ≤ n) (found : (s.stage i).outputs[n]? = some p) :
      n < count ∧ s.Suits pads n p :=
    (declared pads held n p past found).imp_left (Pads.lacks_count fixed).mp
  have length : given.length ≤ (s.stage i).outputs.size := by simpa using first.length_le
  have given_at (n : Nat) (id : PipeId) (there : given[n]? = some id) :
      (s.stage i).outputs[n]? = some id.index := by
    have bound := (List.getElem?_eq_some_iff.mp there).1
    have same := List.prefix_iff_getElem?.mp first n (by simpa using bound)
    rw [← Array.getElem?_toList,same,List.getElem_map,(List.getElem?_eq_some_iff.mp there).2]
  have few : (s.stage i).outputs.size ≤ max count given.length := by
    by_contra many
    obtain ⟨p,found⟩ : ∃ p, (s.stage i).outputs[max count given.length]? = some p :=
      ⟨_,Array.getElem?_eq_getElem (Nat.lt_of_not_le many)⟩
    have below := (behind _ p (Nat.le_max_right ..) found).1
    exact Nat.not_lt.mpr (Nat.le_max_left ..) below
  refine ⟨first,behind,few,fun ⟨size,carry⟩ => ?_,fun ⟨fits,carry⟩ => ⟨?_,fun n p found => ?_⟩⟩
  · exact ⟨Nat.le_trans length size,fun n id there => carry n _ (given_at n id there)⟩
  · rwa [Nat.max_eq_left fits] at few
  · rcases Nat.lt_or_ge n given.length with early | past
    · have there := List.getElem?_eq_getElem early
      obtain rfl : _ = p := Option.some.inj ((given_at n _ there).symm.trans found)
      exact carry n _ there
    · exact (behind n p past found).2

end Stages
end Session

namespace Account
open Session
variable {catalog : Catalog} {events : List Event} {a : Account} {chain : ChainId}

theorem given_eq_nil_of_bare {s : Session} {given : List PipeId} (here : s.OnPads chain given)
    (bare : (s.stage chain.index).outputs = #[]) : given = [] := by
  have first := here.first
  rw [bare] at first
  simpa using first

theorem Trace.given (trace : Trace catalog events a) (own : chain.session = a.session.serial) :
    a.session.OnPads chain (events.flatMap (Event.given chain)) ∧
      a.session.DeclaredFrom chain.index (events.flatMap (Event.given chain)).length := by
  induction trace with
  | new serial => exact ⟨by simp [OnPads],.of_bare rfl⟩
  | @call events a reply c answer t trace known answered ih =>
    have consistent := trace.reached.consistent
    have serial := (consistent.later known answered).serial
    have mine : chain.session = a.session.serial := own.trans serial
    obtain ⟨here,declared⟩ := ih mine
    rw [List.flatMap_append,List.flatMap_singleton]
    by_cases connects : Event.connected? ⟨reply,c,a.session,answer⟩ = some chain
    case neg =>
      rw [Event.given_eq_nil connects,List.append_nil]
      have lasts := lasts_of_changes ((perform_does c).ok answered)
      exact ⟨fun k id found => (here k id found).later lasts serial,
        declaredFrom_after declared consistent known answered
          (connected_apart consistent known mine connects)⟩
    -- Only a chain without outputs is connected, so nothing was given before.
    cases c with
    | connect target pipes =>
      obtain rfl : target = chain := Option.some.inj connects
      obtain ⟨_,_,_,holds,_,bare,_,_,_,same⟩ := connect_ok.mp answered
      rw [given_eq_nil_of_bare here bare,List.nil_append]
      simp only [Event.given,if_true]
      refine ⟨connect_onPads answered,fun _ _ n p past found => ?_⟩
      change (t.stage target.index).outputs[n]? = some p at found
      rw [same,stage_putOutputs _ _ _ _ (inside_of_holds holds),if_pos rfl] at found
      simp [past] at found
    | _ => simp [Event.connected?] at connects

theorem Trace.coloured (trace : Trace catalog events a) {event : Event} (member : event ∈ events) :
    Coloured event.before a.session := by
  induction trace with
  | new => simp at member
  | @call events a reply c answer t trace known answered ih =>
    have step := coloured_after trace.reached.consistent known answered
    rcases List.mem_append.mp member with earlier | last
    · exact (ih earlier).trans step
    · exact List.mem_singleton.mp last ▸ step

/-- Behind the pipes that a caller connects, outputs are on declared pads only and carry the declared
media, whatever they were made or asked for by. A chain keeps to its pads altogether exactly if the
pipes connected to it do. -/
theorem pads_allotted (trace : Trace catalog events a) :
    (∀ i op count, a.session.operationAt i = some op → op.outputs.count = some count →
      a.session.Allotted i op.outputs count
        (events.flatMap (Event.given ⟨a.session.serial,i⟩))) ∧
    ∀ event ∈ events, Coloured event.before a.session := by
  refine ⟨fun i op count held fixed => ?_,fun _ => trace.coloured⟩
  have own : (⟨a.session.serial,i⟩ : ChainId).session = a.session.serial := rfl
  obtain ⟨here,declared⟩ := trace.given own
  exact .of_declared here.first declared (by rw [padsAt,held,Option.map_some]) fixed

def sharedSource : List ((reply : Reply) × Call reply) :=
  [⟨_,.newPipe⟩,⟨_,.setMedia ⟨0,0⟩ .video⟩,⟨_,.start []⟩,
    ⟨_,.extend ⟨0,0⟩ ((Operation.named "src").withOutputs (.fixed [.video,.audio]))⟩,
    ⟨_,.connect ⟨0,0⟩ [⟨0,0⟩]⟩,⟨_,.takeOutputs ⟨0,0⟩ 2⟩]

theorem pads_allotted_shared : ∃ a, run? sharedSource (.new 0 .empty) = some a ∧
    a.session.Allotted 0 (.fixed [.video,.audio]) 2 [⟨0,0⟩] ∧
    a.session.Respects 0 (.fixed [.video,.audio]) 2 ∧ (a.session.stage 0).outputs = #[0,1] := by
  have runs : (run? sharedSource (.new 0 .empty)).any (fun a => decide
      (a.session.serial = 0 ∧
        a.session.operationAt 0 = some ((Operation.named "src").withOutputs (.fixed [.video,.audio])) ∧
        (a.session.pipe 0).media = .video ∧ (a.session.stage 0).outputs = #[0,1])) = true := by
    decide +kernel
  obtain ⟨a,ran,facts⟩ := (Option.any_eq_true ..).mp runs
  obtain ⟨serial,held,media,outputs⟩ := of_decide_eq_true facts
  have put : (history sharedSource (.new 0 .empty)).flatMap (Event.given ⟨0,0⟩) = [⟨0,0⟩] := by
    decide +kernel
  have allotted := (pads_allotted ((Trace.new 0).run ran)).1 0 _ 2 held rfl
  rw [serial,List.nil_append,put] at allotted
  refine ⟨a,ran,allotted,allotted.respects.mpr ⟨by decide,fun n id found => ?_⟩,outputs⟩
  obtain ⟨rfl,rfl⟩ : n = 0 ∧ id = ⟨0,0⟩ := by
    cases n <;> simp_all
  exact fun _ => media

/-- A source with one video output, to which the caller connects two pipes of unknown media. -/
def crowdedSource : List ((reply : Reply) × Call reply) :=
  [⟨_,.newPipe⟩,⟨_,.newPipe⟩,⟨_,.start []⟩,
    ⟨_,.extend ⟨0,0⟩ ((Operation.named "src").withOutputs (.fixed [.video]))⟩,
    ⟨_,.connect ⟨0,0⟩ [⟨0,0⟩,⟨0,1⟩]⟩]

/-- Connecting puts more pipes on a chain than it has pads, and leaves their media as they are. -/
theorem pads_not_respected : ∃ events a, Trace .empty events a ∧
    a.session.operationAt 0 = some ((Operation.named "src").withOutputs (.fixed [.video])) ∧
    (a.session.stage 0).outputs = #[0,1] ∧ ¬ a.session.Suits (.fixed [.video]) 0 0 ∧
    ¬ a.session.Respects 0 (.fixed [.video]) 1 := by
  have runs : (run? crowdedSource (.new 0 .empty)).any (fun a => decide
      (a.session.operationAt 0 = some ((Operation.named "src").withOutputs (.fixed [.video])) ∧
        (a.session.stage 0).outputs = #[0,1] ∧ (a.session.pipe 0).media = .unknown)) = true := by
    decide +kernel
  obtain ⟨a,ran,facts⟩ := (Option.any_eq_true ..).mp runs
  obtain ⟨held,outputs,media⟩ := of_decide_eq_true facts
  refine ⟨_,a,(Trace.new 0).run ran,held,outputs,fun suits => ?_,fun ⟨few,_⟩ => ?_⟩
  · rw [suits (by decide)] at media
    exact absurd media (by decide)
  · rw [outputs] at few
    exact absurd few (by decide)

end Account
end MediaGraph
