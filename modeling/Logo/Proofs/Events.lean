import Logo.Proofs.Paths

/-!
# What a step does to the outside

`Config.events` lists what a step does that can be noticed outside of it: chunks
printed, frames made, names declared or shared, cells written, activations
ended, calls of host functions begun. The list is complete: the engine after
a step is the engine before it with the events of the step applied in order and
what host code left in it taken over (`step_accounts`). A write of the value that
a cell holds already is an event like any other.
-/

namespace Logo
set_option autoImplicit false

variable {σ : Type}

inductive Event where
  | printed (chunk : String)
  /-- A frame was made inside of `parent`. -/
  | framed (parent : FrameId)
  /-- A name in a frame got a cell of its own. -/
  | declared (f : FrameId) (name : String) (v : Option Value)
  /-- A name in a frame got an existing cell. -/
  | shared (f : FrameId) (name : String) (c : CellId)
  | wrote (c : CellId) (v : Value)
  /-- A definition got its number. -/
  | numbered
  /-- The innermost activation was ended, with a value or without. -/
  | ended (v : Option Value)
  /-- A call of a host function was begun. -/
  | called (id : Nat) (inputs : List Value)

namespace Event

def onEngine (e : Engine σ) : Event → Engine σ
  | printed chunk => { e with sink := e.sink.write chunk }
  | framed parent => { e with scopes := (e.scopes.child parent).2 }
  | declared f name v => { e with scopes := (e.scopes.declare f name v).2 }
  | shared f name c => { e with scopes := e.scopes.share f name c }
  | wrote c v => { e with scopes := e.scopes.write c v }
  | numbered => { e with definitions := e.definitions + 1 }
  | ended _ | called _ _ => e

def onActivations (l : List Activation) : Event → List Activation
  | ended v =>
    match l with
    | a :: rest => (match v with | some v => a.output v | none => a.stop) :: rest
    | [] => []
  | _ => l

/-- Does the event end an activation? -/
def isEnded : Event → Bool
  | ended _ => true
  | _ => false

end Event

/-! ### Events of each construct -/

/-- A new frame inside of the current one, with its names. -/
def frameEvents (m : Machine σ) (bindings : List (String × Value)) : List Event :=
  .framed m.currentFrame ::
    bindings.map fun b => .declared m.engine.scopes.frames.size b.1 (some b.2)

def templateEvents (m : Machine σ) (caller : String) (template : Value) (inputs : List Value) :
    List Event :=
  match template with
  | .list (.list params :: _) =>
    if inputs.length < params.length then []
    else
      match params.mapM (parameter caller) with
      | .error _ => []
      | .ok names => frameEvents m (names.zip inputs)
  | _ => []

/-- The events of handling names one after the other, each in the scopes that the ones
before it leave. -/
def nameEvents (events : Scopes → String → List Event) (after : Scopes → String → Scopes) :
    Scopes → List String → List Event
  | _, [] => []
  | s, name :: names => events s name ++ nameEvents events after (after s name) names

def localEvents (f : FrameId) (s : Scopes) (name : String) : List Event :=
  match s.localCell? f name with
  | some _ => []
  | none => [.declared f name none]

def globalEvents (f : FrameId) (s : Scopes) (name : String) : List Event :=
  match s.localCell? globalFrame name with
  | some c => if f = globalFrame then [] else [.shared f name c]
  | none =>
    .declared globalFrame name none ::
      if f = globalFrame then [] else [.shared f name s.cells.size]

def assignEvents (m : Machine σ) (name : String) (v : Value) : List Event :=
  match m.engine.scopes.resolve? m.currentFrame name with
  | some c => [.wrote c v]
  | none => [.declared globalFrame name (some v)]

def definitionEvents (m : Machine σ) (name : String) (params : List String) (body : List Value) :
    List Event :=
  [.numbered, .declared m.currentFrame name
    (some (.procedure (.defined m.engine.definitions name params body)))]

namespace Primitive

def finishEvents (m : Machine σ) (v : Option Value) : List Event :=
  match m.live.activations with
  | _ :: _ => [.ended v]
  | [] => []

/-- The events of a primitive by itself. -/
def events (p : Primitive) (inputs : List Value) (m : Machine σ) : List Event :=
  match p with
  | output =>
    match inputs with
    | [v] => finishEvents m (some v)
    | _ => []
  | stop => finishEvents m none
  | define =>
    match p.definition inputs with
    | .ok d => definitionEvents m d.1 d.2.1 d.2.2
    | .error _ => []
  | make =>
    match p.two inputs fun name v => do return (← p.taker.name name, v) with
    | .ok b => assignEvents m b.1 b.2
    | .error _ => []
  | localName =>
    match p.one inputs p.taker.names with
    | .ok names =>
      nameEvents (localEvents m.currentFrame) (declareLocal m.currentFrame) m.engine.scopes names
    | .error _ => []
  | globalName =>
    match p.one inputs p.taker.names with
    | .ok names =>
      nameEvents (globalEvents m.currentFrame) (tieGlobal m.currentFrame) m.engine.scopes names
    | .error _ => []
  | print => [.printed (joined " " (inputs.map Value.printed) ++ "\n")]
  | display => [.printed (joined " " (inputs.map Value.render) ++ "\n")]
  | type => [.printed (joined " " (inputs.map Value.printed))]
  | _ => []

/-- The events of what a primitive left to be done. -/
def planEvents (done : Except Fault Effect × Machine σ) : List Event :=
  match done with
  | (.ok (.template caller template inputs), m) => templateEvents m caller template inputs
  | _ => []

end Primitive

def Procedure.events (m : Machine σ) (inputs : List Value) : Procedure → List Event
  | .primitive p =>
    let inputs := if p.variadic then inputs else inputs.take p.arity
    p.events inputs m ++ Primitive.planEvents (p.perform inputs m)
  | .host id _ arity =>
    match m.engine.hosts[id]? with
    | some _ => [.called id (inputs.take arity)]
    | none => []
  | .defined _ _ params _ =>
    if m.engine.depthLimit ≤ m.live.activations.length then []
    else frameEvents m (params.zip inputs)

def Loop.events (m : Machine σ) : Loop → List Event
  | .each template (item :: _) => templateEvents m Primitive.foreach.name template [item]
  | .collect template (item :: _) _ => templateEvents m Primitive.map.name template [item]
  | _ => []

def Act.events (m : Machine σ) : Act → List Event
  | .literal _ | .read _ => []
  | .call p inputs => p.events m inputs
  | .pass l => l.events m

/-- What the next step does that is noticed outside. -/
def Config.events (c : Config σ) : List Event :=
  match c.focus, c.machine.engine.state with
  | .checkpoint a, .running | .checkpoint a, .idle => a.events c.machine
  | _, _ => []

/-- Nothing but what host code leaves to the engine. -/
def HostWork.trace {α : Type} (work : HostWork σ α) : HostWork σ Unit :=
  ⟨work.memory, work.signals, ()⟩

/-- What host code leaves in the next step. -/
def Config.hostWork (c : Config σ) : HostWork σ Unit :=
  let e := c.machine.engine
  match c.focus, e.state with
  | .checkpoint (.call (.host id _ arity) inputs), .running
  | .checkpoint (.call (.host id _ arity) inputs), .idle =>
    match e.hosts[id]? with
    | some (.sync kinds body) => (HostBody.apply kinds body (inputs.take arity) e.hostView).trace
    | _ => ⟨e.memory, [], ()⟩
  | .ask id inputs asked, _ =>
    if e.looksForAnswer then
      match e.hosts[id]? with
      | some (.async _ ask) => (ask inputs asked e.hostView).trace
      | _ => ⟨e.memory, [], ()⟩
    else ⟨e.memory, [], ()⟩
  | _, _ => ⟨e.memory, [], ()⟩

/-! ### The events of a construct account for what it does -/

/-- What an engine keeps under events. -/
structure Engine.Kept (e e' : Engine σ) : Prop where
  hosts : e'.hosts = e.hosts
  depthLimit : e'.depthLimit = e.depthLimit
  clock : e'.clock = e.clock
  state : e'.state = e.state
  memory : e'.memory = e.memory

theorem kept_foldl_onEngine (es : List Event) (e : Engine σ) :
    Engine.Kept e (es.foldl Event.onEngine e) := by
  induction es generalizing e with
  | nil => exact ⟨rfl, rfl, rfl, rfl, rfl⟩
  | cons event es ih =>
    have h : Engine.Kept e (Event.onEngine e event) := by
      cases event <;> exact ⟨rfl, rfl, rfl, rfl, rfl⟩
    have h' := ih (Event.onEngine e event)
    exact ⟨h'.hosts.trans h.hosts, h'.depthLimit.trans h.depthLimit, h'.clock.trans h.clock,
      h'.state.trans h.state, h'.memory.trans h.memory⟩

theorem foldl_onActivations {es : List Event} (h : ∀ event ∈ es, event.isEnded = false)
    (l : List Activation) : es.foldl Event.onActivations l = l := by
  induction es generalizing l with
  | nil => rfl
  | cons event es ih =>
    have he : Event.onActivations l event = l := by
      have := h event List.mem_cons_self
      cases event
      case ended v => cases this
      all_goals rfl
    rw [List.foldl_cons, he]
    exact ih (fun event he => h event (List.mem_cons_of_mem _ he)) l

def Focus.isAsk : Focus → Bool
  | .ask _ _ _ => true
  | _ => false

/-- What was done from machine `m` on is what the events say; at most an activation was
opened or closed. -/
structure Accounts (es : List Event) (m : Machine σ) (c : Config σ) : Prop where
  engine : c.machine.engine = es.foldl Event.onEngine m.engine
  activations : c.machine.live.activations = es.foldl Event.onActivations m.live.activations ∨
    c.machine.live.activations = {} :: es.foldl Event.onActivations m.live.activations ∨
    c.machine.live.activations = (es.foldl Event.onActivations m.live.activations).tail
  focus : c.focus.isAsk = false

/-- Nothing was done. -/
theorem Accounts.none {m : Machine σ} {focus : Focus} {tokens : List Value} {pending : List Pending}
    (h : focus.isAsk = false) : Accounts [] m ⟨m, focus, tokens, pending⟩ :=
  ⟨rfl, .inl rfl, h⟩

section Constructs

variable {m : Machine σ} {tokens : List Value} {pending : List Pending}

theorem foldl_declared (f : FrameId) (bindings : List (String × Value)) (e : Engine σ) :
    (bindings.map fun b => Event.declared f b.1 (some b.2)).foldl Event.onEngine e
      = { e with scopes := bindings.foldl (fun s b => s.bind f b.1 b.2) e.scopes } := by
  induction bindings generalizing e with
  | nil => rfl
  | cons b bindings ih => exact ih _

theorem openFrame_engine (bindings : List (String × Value)) :
    (m.openFrame bindings).engine = (frameEvents m bindings).foldl Event.onEngine m.engine := by
  unfold frameEvents
  rw [List.foldl_cons, foldl_declared]
  rfl

theorem frameEvents_isEnded (bindings : List (String × Value)) :
    ∀ event ∈ frameEvents m bindings, event.isEnded = false := by
  intro event h
  obtain rfl | h := List.mem_cons.1 h
  · rfl
  · obtain ⟨b, -, rfl⟩ := List.mem_map.1 h
    rfl

theorem enter_accounts {es : List Event} {m' : Machine σ}
    (he : m'.engine = es.foldl Event.onEngine m.engine)
    (ha : m'.live.activations = es.foldl Event.onActivations m.live.activations ∨
      m'.live.activations = {} :: es.foldl Event.onActivations m.live.activations)
    (items : List Value) : Accounts es m (enter m' items tokens pending) := by
  cases items with
  | nil => exact ⟨he, ha.imp_right .inl, rfl⟩
  | cons item items => exact ⟨he, ha.imp_right .inl, rfl⟩

theorem callNamed_accounts (name : String) (parenthesised : Bool) :
    Accounts [] m (callNamed m name parenthesised tokens pending) := by
  unfold callNamed
  split
  · exact .none rfl
  · exact .none rfl

theorem readOperand_accounts : Accounts [] m (readOperand m tokens pending) := by
  cases tokens with
  | nil => exact .none rfl
  | cons token rest =>
    simp only [readOperand]
    cases Role.of token
    case openParen =>
      cases rest with
      | nil => exact .none rfl
      | cons token rest =>
        simp only [openParen]
        cases Role.of token
        case word name => exact callNamed_accounts name true
        all_goals exact .none rfl
    case word name => exact callNamed_accounts name false
    case operator op =>
      cases op
      case subtract =>
        simp only
        split
        · exact .none rfl
        · exact .none rfl
      all_goals exact .none rfl
    all_goals exact .none rfl

theorem readChain_accounts (c : Chain) : Accounts [] m (readChain m c tokens pending) := by
  unfold readChain
  cases operatorAhead? tokens with
  | none =>
    simp only
    split
    · exact .none rfl
    · exact .none rfl
  | some op =>
    simp only
    split
    · exact .none rfl
    · split
      · exact .none rfl
      · split
        · exact .none rfl
        · exact .none rfl

theorem readInputs_accounts (g : Gathering) : Accounts [] m (readInputs m g tokens pending) := by
  unfold readInputs
  split
  · split
    · exact .none rfl
    · split
      · split
        · exact .none rfl
        · exact .none rfl
      · exact .none rfl
  · split
    · exact .none rfl
    · split
      · exact .none rfl
      · split
        · exact .none rfl
        · exact .none rfl

theorem callWith_accounts (p : Procedure) (inputs : List Value) :
    Accounts [] m (callWith m p inputs tokens pending) := by
  unfold callWith
  split
  · exact .none rfl
  · exact .none rfl

theorem applyList_accounts (caller : String) (template inputs : List Value) :
    Accounts (templateEvents m caller (.list template) inputs) m
      (applyList m caller template inputs tokens pending) := by
  unfold applyList
  split
  · rename_i params body
    simp only [templateEvents]
    split
    · exact .none rfl
    · cases params.mapM (parameter caller) with
      | error f => exact .none rfl
      | ok names =>
        refine enter_accounts (openFrame_engine _) (.inl ?_) _
        rw [foldl_onActivations (frameEvents_isEnded _)]
        rfl
  · rename_i hne
    have hev : templateEvents m caller (.list template) inputs = [] := by
      unfold templateEvents
      split
      · rename_i params body he
        cases he
        exact absurd rfl (hne params body)
      · rfl
    rw [hev]
    exact .none rfl

theorem applyTemplate_accounts (caller : String) (template : Value) (inputs : List Value) :
    Accounts (templateEvents m caller template inputs) m
      (applyTemplate m caller template inputs tokens pending) := by
  cases template
  case procedure p => exact callWith_accounts p inputs
  case text s =>
    simp only [applyTemplate]
    split
    · exact callWith_accounts _ inputs
    · exact .none rfl
  case list items => exact applyList_accounts caller items inputs
  all_goals exact .none rfl

theorem callDefined_accounts (params : List String) (body inputs : List Value) :
    Accounts (if m.engine.depthLimit ≤ m.live.activations.length then []
      else frameEvents m (params.zip inputs)) m (callDefined m params body inputs tokens pending) := by
  unfold callDefined
  split
  · exact .none rfl
  · have he : (m.openFrame (params.zip inputs)).openActivation.engine
        = (frameEvents m (params.zip inputs)).foldl Event.onEngine m.engine := openFrame_engine _
    refine enter_accounts he (.inr ?_) _
    rw [foldl_onActivations (frameEvents_isEnded _)]
    rfl

theorem beginPass_accounts (l : Loop) : Accounts (l.events m) m (beginPass m l tokens pending) := by
  have keep : ∀ n, (m.setCounter n).engine = m.engine ∧
      (m.setCounter n).live.activations = m.live.activations := by
    intro n
    unfold Machine.setCounter
    split
    · exact ⟨rfl, rfl⟩
    · exact ⟨rfl, rfl⟩
  cases l with
  | times block begun total => exact enter_accounts (keep _).1 (.inl (keep _).2) block
  | endless block => exact enter_accounts rfl (.inl rfl) block
  | each template items =>
    cases items with
    | nil => exact .none rfl
    | cons item items => exact applyTemplate_accounts _ template [item]
  | collect template items outputs =>
    cases items with
    | nil => exact .none rfl
    | cons item items => exact applyTemplate_accounts _ template [item]

theorem afterPass_accounts (l : Loop) (v : Option Value) :
    Accounts [] m (afterPass m l v tokens pending) := by
  unfold afterPass
  split
  · exact .none rfl
  · split
    · exact .none rfl
    · exact .none rfl
  · exact .none rfl
  · split
    · exact .none rfl
    · exact .none rfl

theorem resume_accounts (v : Option Value) (p : Pending) :
    Accounts [] m (resume m v tokens p pending) := by
  cases p with
  | sequence saved =>
    simp only [resume]
    split
    · exact .none rfl
    · split
      · exact .none rfl
      · exact .none rfl
      · exact .none rfl
  | firstOperand =>
    simp only [resume]
    split
    · exact .none rfl
    · exact .none rfl
    · exact .none rfl
  | rightOperand c op producer =>
    cases v with
    | none => exact .none rfl
    | some v => exact .none rfl
  | negation =>
    cases v with
    | none => exact .none rfl
    | some v =>
      simp only [resume]
      split
      · exact .none rfl
      · exact .none rfl
  | group =>
    cases tokens with
    | nil => exact .none rfl
    | cons token rest =>
      simp only [resume]
      split
      · exact .none rfl
      · exact .none rfl
  | input g producer =>
    cases v with
    | none => exact .none rfl
    | some v => exact .none rfl
  | activation =>
    cases v with
    | none => exact ⟨rfl, .inr (.inr rfl), rfl⟩
    | some v => exact ⟨rfl, .inr (.inr rfl), rfl⟩
  | template => exact ⟨rfl, .inl rfl, rfl⟩
  | counter => exact ⟨rfl, .inl rfl, rfl⟩
  | loop l => exact afterPass_accounts l v

theorem abandon_accounts (p : Pending) (f : Fault) :
    Accounts [] m ⟨abandon m p, .raise f, tokens, pending⟩ := by
  cases p
  case activation => exact ⟨rfl, .inr (.inr rfl), rfl⟩
  all_goals exact ⟨rfl, .inl rfl, rfl⟩

end Constructs

/-! ### Primitives -/

namespace Primitive

variable {m : Machine σ}

/-- The events of a primitive account for what it does to the machine. -/
structure Accounted (es : List Event) (m m' : Machine σ) : Prop where
  engine : m'.engine = es.foldl Event.onEngine m.engine
  activations : m'.live.activations = es.foldl Event.onActivations m.live.activations

theorem nameEvents_scopes {events : Scopes → String → List Event} {after : Scopes → String → Scopes}
    (h : ∀ (e : Engine σ) name,
      (events e.scopes name).foldl Event.onEngine e = { e with scopes := after e.scopes name })
    (names : List String) (e : Engine σ) :
    (nameEvents events after e.scopes names).foldl Event.onEngine e
      = { e with scopes := names.foldl after e.scopes } := by
  induction names generalizing e with
  | nil => rfl
  | cons name names ih =>
    rw [nameEvents, List.foldl_append, h]
    exact ih { e with scopes := after e.scopes name }

theorem nameEvents_isEnded {events : Scopes → String → List Event} {after : Scopes → String → Scopes}
    (h : ∀ s name, ∀ event ∈ events s name, event.isEnded = false) (names : List String) (s : Scopes) :
    ∀ event ∈ nameEvents events after s names, event.isEnded = false := by
  induction names generalizing s with
  | nil => exact fun event he => by cases he
  | cons name names ih =>
    intro event he
    obtain he | he := List.mem_append.1 he
    · exact h s name event he
    · exact ih _ event he

theorem localEvents_scopes (f : FrameId) (e : Engine σ) (name : String) :
    (localEvents f e.scopes name).foldl Event.onEngine e
      = { e with scopes := declareLocal f e.scopes name } := by
  unfold localEvents declareLocal
  cases e.scopes.localCell? f name with
  | none => rfl
  | some c => rfl

theorem globalEvents_scopes (f : FrameId) (e : Engine σ) (name : String) :
    (globalEvents f e.scopes name).foldl Event.onEngine e
      = { e with scopes := tieGlobal f e.scopes name } := by
  unfold globalEvents tieGlobal
  cases e.scopes.localCell? globalFrame name with
  | some c =>
    simp only
    split
    · rfl
    · rfl
  | none =>
    simp only [List.foldl_cons]
    split
    · rfl
    · rfl

theorem finish_accounted (p : Primitive) (v : Option Value) :
    Accounted (finishEvents m v) m
      (p.finish m fun a => match v with | some v => a.output v | none => a.stop).2 := by
  unfold finishEvents finish
  cases h : m.live.activations with
  | nil => exact ⟨rfl, by rw [h]; rfl⟩
  | cons a rest => exact ⟨rfl, by rw [h]; rfl⟩

theorem perform_accounted (p : Primitive) (inputs : List Value) :
    Accounted (p.events inputs m) m (p.perform inputs m).2 := by
  cases p
  case output =>
    match inputs with
    | [] => exact ⟨rfl, rfl⟩
    | [v] => exact finish_accounted output (some v)
    | _ :: _ :: _ => exact ⟨rfl, rfl⟩
  case stop => exact finish_accounted _ none
  case define =>
    simp only [events, perform]
    cases define.definition inputs with
    | error f => exact ⟨rfl, rfl⟩
    | ok d => exact ⟨rfl, rfl⟩
  case make =>
    simp only [events, perform]
    cases make.two inputs fun name v => do return (← make.taker.name name, v) with
    | error f => exact ⟨rfl, rfl⟩
    | ok b =>
      simp only [taking, assignEvents, assign, Machine.mapScopes]
      cases m.engine.scopes.resolve? m.currentFrame b.1 with
      | none => exact ⟨rfl, rfl⟩
      | some c => exact ⟨rfl, rfl⟩
  case localName =>
    simp only [events, perform]
    cases localName.one inputs localName.taker.names with
    | error f => exact ⟨rfl, rfl⟩
    | ok names =>
      refine ⟨(nameEvents_scopes (localEvents_scopes _) names m.engine).symm, ?_⟩
      rw [foldl_onActivations (nameEvents_isEnded ?_ names _)]
      · rfl
      · intro s name event he
        unfold localEvents at he
        split at he
        · cases he
        · obtain rfl := List.mem_singleton.1 he
          rfl
  case globalName =>
    simp only [events, perform]
    cases globalName.one inputs globalName.taker.names with
    | error f => exact ⟨rfl, rfl⟩
    | ok names =>
      refine ⟨(nameEvents_scopes (globalEvents_scopes _) names m.engine).symm, ?_⟩
      rw [foldl_onActivations (nameEvents_isEnded ?_ names _)]
      · rfl
      · intro s name event he
        unfold globalEvents at he
        split at he
        · split at he
          · cases he
          · obtain rfl := List.mem_singleton.1 he
            rfl
        · obtain rfl | he := List.mem_cons.1 he
          · rfl
          · split at he
            · cases he
            · obtain rfl := List.mem_singleton.1 he
              rfl
  all_goals exact ⟨rfl, rfl⟩

theorem carryOut_accounts (tokens : List Value) (pending : List Pending) (e : Effect) :
    Accounts (planEvents (.ok e, m)) m (carryOut m e tokens pending) := by
  cases e
  case block items => exact enter_accounts rfl (.inl rfl) items
  case loop l =>
    cases l
    case times block begun total => exact ⟨rfl, .inl rfl, rfl⟩
    all_goals exact .none rfl
  case template caller template inputs => exact applyTemplate_accounts caller template inputs
  all_goals exact .none rfl

end Primitive

/-! ### Whole steps -/

/-- No host code ran. -/
def Config.HostIdle (c : Config σ) : Prop := c.hostWork = ⟨c.machine.engine.memory, [], ()⟩

/-- The step from `c` to `c'` does to the outside what `c` says and nothing else. -/
structure Explains (c c' : Config σ) : Prop where
  engine : c'.machine.engine = (c.events.foldl Event.onEngine c.machine.engine).afterHost c.hostWork
  activations :
    c'.machine.live.activations = c.events.foldl Event.onActivations c.machine.live.activations ∨
    c'.machine.live.activations = {} :: c.events.foldl Event.onActivations c.machine.live.activations ∨
    c'.machine.live.activations
      = (c.events.foldl Event.onActivations c.machine.live.activations).tail
  /-- A host function that is asked was called before, and is asked as often as it should. -/
  asks : ∀ id inputs n, c'.focus = .ask id inputs n →
    (n = 0 ∧ .called id inputs ∈ c.events) ∨ ∃ k, n = k + 1 ∧ c.focus = .ask id inputs k
  /-- Host code runs only in a call that begins or has begun. -/
  hosts : c.HostIdle ∨ (∃ id inputs, .called id inputs ∈ c.events) ∨ c.focus.isAsk = true

theorem Accounts.explains {c c' : Config σ} (h : Accounts c.events c.machine c') (hi : c.HostIdle) :
    Explains c c' where
  engine := by
    have hk := kept_foldl_onEngine c.events c.machine.engine
    rw [h.engine, hi, ← hk.memory]
    rfl
  activations := h.activations
  asks := by
    intro id inputs n hf
    have := h.focus
    rw [hf] at this
    cases this
  hosts := .inl hi

theorem callHost_explains {m : Machine σ} {tokens : List Value} {pending : List Pending}
    {id arity : Nat} {name : String} {inputs : List Value}
    (hs : m.engine.state = .running ∨ m.engine.state = .idle) :
    Explains ⟨m, .checkpoint (.call (.host id name arity) inputs), tokens, pending⟩
      (callHost m id name (inputs.take arity) tokens pending) := by
  have hev : Config.events ⟨m, .checkpoint (.call (.host id name arity) inputs), tokens, pending⟩
      = Procedure.events m inputs (.host id name arity) := by
    unfold Config.events
    obtain hs | hs := hs <;> simp only [hs, Act.events]
  have hwork : Config.hostWork ⟨m, .checkpoint (.call (.host id name arity) inputs), tokens, pending⟩
      = match m.engine.hosts[id]? with
        | some (.sync kinds body) =>
          (HostBody.apply kinds body (inputs.take arity) m.engine.hostView).trace
        | _ => ⟨m.engine.memory, [], ()⟩ := by
    unfold Config.hostWork
    obtain hs | hs := hs <;> simp only [hs]
  unfold callHost
  cases hf : m.engine.hosts[id]? with
  | none =>
    simp only [Procedure.events, hf] at hev hwork
    refine Accounts.explains ?_ hwork
    rw [hev]
    exact .none rfl
  | some f =>
    simp only [Procedure.events, hf] at hev
    have hcall : Event.called id (inputs.take arity) ∈ Config.events
        ⟨m, .checkpoint (.call (.host id name arity) inputs), tokens, pending⟩ := by
      rw [hev]
      exact List.mem_singleton_self _
    cases f with
    | async arity' ask =>
      simp only [hf] at hwork
      refine ⟨by rw [hev, hwork]; rfl, by rw [hev]; exact .inl rfl, ?_, .inl hwork⟩
      rintro id' inputs' n ⟨⟩
      exact .inl ⟨rfl, hcall⟩
    | sync kinds body =>
      simp only [hf] at hwork
      simp only
      split
      · refine ⟨by rw [hev, hwork]; rfl, by rw [hev]; exact .inl rfl, ?_, .inr (.inl ⟨_, _, hcall⟩)⟩
        rintro id' inputs' n ⟨⟩
      · refine ⟨by rw [hev, hwork]; rfl, by rw [hev]; exact .inl rfl, ?_, .inr (.inl ⟨_, _, hcall⟩)⟩
        rintro id' inputs' n ⟨⟩

theorem act_explains {m : Machine σ} {tokens : List Value} {pending : List Pending} (a : Act)
    (hs : m.engine.state = .running ∨ m.engine.state = .idle) :
    Explains ⟨m, .checkpoint a, tokens, pending⟩ (act m a tokens pending) := by
  have hev : Config.events ⟨m, .checkpoint a, tokens, pending⟩ = a.events m := by
    unfold Config.events
    obtain hs | hs := hs <;> simp only [hs]
  cases a with
  | literal v =>
    refine Accounts.explains ?_ rfl
    rw [hev]
    exact .none rfl
  | read name =>
    refine Accounts.explains ?_ rfl
    rw [hev]
    simp only [act]
    split
    · exact .none rfl
    · exact .none rfl
  | pass l =>
    refine Accounts.explains ?_ rfl
    rw [hev]
    exact beginPass_accounts l
  | call p inputs =>
    cases p with
    | host id name arity => exact callHost_explains hs
    | defined id name params body =>
      refine Accounts.explains ?_ rfl
      rw [hev]
      exact callDefined_accounts params body inputs
    | primitive p =>
      refine Accounts.explains ?_ rfl
      rw [hev]
      simp only [Act.events, Procedure.events, act, callProcedure]
      have hp := p.perform_accounted (m := m) (if p.variadic then inputs else inputs.take p.arity)
      generalize p.perform _ m = done at hp
      obtain ⟨f | e, m'⟩ := done
      · simp only [Primitive.planEvents, List.append_nil]
        exact ⟨hp.engine, .inl hp.activations, rfl⟩
      · have hc := Primitive.carryOut_accounts (m := m') tokens pending e
        simp only at hp
        refine ⟨?_, ?_, hc.focus⟩
        · rw [List.foldl_append, ← hp.engine]
          exact hc.engine
        · rw [List.foldl_append, ← hp.activations]
          exact hc.activations

/-- At a checkpoint that does not let the run through nothing is done. -/
theorem blocked_explains {m : Machine σ} {tokens : List Value} {pending : List Pending} {a : Act}
    {focus : Focus} (hs : m.engine.state = .paused ∨ m.engine.state = .cancelling)
    (hf : focus.isAsk = false) :
    Explains ⟨m, .checkpoint a, tokens, pending⟩ ⟨m, focus, tokens, pending⟩ := by
  have hev : Config.events ⟨m, .checkpoint a, tokens, pending⟩ = [] := by
    unfold Config.events
    obtain hs | hs := hs <;> simp only [hs]
  have hwork : Config.HostIdle ⟨m, .checkpoint a, tokens, pending⟩ := by
    unfold Config.HostIdle Config.hostWork
    obtain hs | hs := hs <;> simp only [hs]
  refine Accounts.explains ?_ hwork
  rw [hev]
  exact .none hf

theorem askHost_explains {m : Machine σ} {tokens : List Value} {pending : List Pending}
    {id asked : Nat} {inputs : List Value} (hl : m.engine.looksForAnswer = true) {c : Config σ}
    (hc : (askHost m id inputs asked tokens pending).config? = some c) :
    Explains ⟨m, .ask id inputs asked, tokens, pending⟩ c := by
  have hwork : Config.hostWork ⟨m, .ask id inputs asked, tokens, pending⟩
      = match m.engine.hosts[id]? with
        | some (.async _ ask) => (ask inputs asked m.engine.hostView).trace
        | _ => ⟨m.engine.memory, [], ()⟩ := by
    unfold Config.hostWork
    simp only [hl, if_true]
  have hnew : ∀ {m' : Machine σ} {focus : Focus},
      m'.engine = m.engine.afterHost (Config.hostWork ⟨m, .ask id inputs asked, tokens, pending⟩) →
      m'.live = m.live → (focus.isAsk = false ∨ focus = .ask id inputs (asked + 1)) →
      Explains ⟨m, .ask id inputs asked, tokens, pending⟩ ⟨m', focus, tokens, pending⟩ := by
    intro m' focus he hl hf
    refine ⟨he, .inl (congrArg Live.activations hl), ?_, .inr (.inr rfl)⟩
    rintro id' inputs' n rfl
    obtain hf | hf := hf
    · cases hf
    · cases hf
      exact .inr ⟨asked, rfl, rfl⟩
  unfold askHost at hc
  split at hc
  · rename_i arity ask hf
    simp only [hf] at hwork
    simp only at hc
    split at hc <;> cases hc
    · exact hnew (by rw [hwork]; rfl) rfl (.inl rfl)
    · exact hnew (by rw [hwork]; rfl) rfl (.inl rfl)
    · exact hnew (by rw [hwork]; rfl) rfl (.inr rfl)
    · exact hnew (by rw [hwork]; rfl) rfl (.inr rfl)
  · rename_i hf
    cases hc
    refine hnew ?_ rfl (.inl rfl)
    rw [hwork]
    split
    · rename_i arity ask hf'
      exact absurd hf' (hf arity ask)
    · rfl

/-- To give up instead does no more. -/
theorem Explains.raise {c c' : Config σ} (h : Explains c c') (f : Fault) :
    Explains c { c' with focus := .raise f } where
  engine := h.engine
  activations := h.activations
  asks := by
    rintro id inputs n ⟨⟩
  hosts := h.hosts

theorem race_explains {c : Config σ} {m : Machine σ} {answer : Next σ} {tokens : List Value}
    {pending : List Pending}
    (hb : m.engine.looksForAnswer = false → Explains c ⟨m, .raise .stopped, tokens, pending⟩)
    (ha : m.engine.looksForAnswer = true → ∀ d, answer.config? = some d → Explains c d)
    {c' : Config σ} (hs : (race m answer tokens pending).config? = some c') : Explains c c' := by
  obtain ⟨hl, -, h⟩ | ⟨hl, h⟩ | ⟨hl, why, d, rfl, -, h⟩ := race_cases m answer tokens pending
  · rw [h] at hs
    cases hs
    exact hb hl
  · rw [h] at hs
    exact ha hl c' hs
  · rw [h] at hs
    cases hs
    exact (ha hl d rfl).raise _

/-- Every step is explained by its events and by what host code leaves in it. -/
theorem step_explains {c c' : Config σ} (hs : (step c).config? = some c') : Explains c c' := by
  obtain ⟨m, focus, tokens, pending⟩ := c
  cases focus with
  | expression =>
    cases hs
    exact Accounts.explains (.none rfl) rfl
  | operand =>
    cases hs
    exact Accounts.explains readOperand_accounts rfl
  | chain c =>
    cases hs
    exact Accounts.explains (readChain_accounts c) rfl
  | gather g =>
    cases hs
    exact Accounts.explains (readInputs_accounts g) rfl
  | turn l =>
    simp only [step] at hs
    split at hs
    · cases hs
      exact Accounts.explains (.none rfl) rfl
    · cases hs
      exact Accounts.explains (.none rfl) rfl
  | checkpoint a =>
    simp only [step] at hs
    split at hs <;> cases hs
    · exact blocked_explains (.inr (by assumption)) rfl
    · exact blocked_explains (.inl (by assumption)) rfl
    · exact act_explains a (.inl (by assumption))
    · exact act_explains a (.inr (by assumption))
  | ask id inputs asked =>
    refine race_explains ?_ (fun hl c hc => askHost_explains hl hc) hs
    intro hl
    refine Accounts.explains (.none rfl) ?_
    unfold Config.HostIdle Config.hostWork
    simp only [hl, Bool.false_eq_true, if_false]
  | sleep deadline =>
    refine race_explains ?_ ?_ hs
    · intro _
      exact Accounts.explains (.none rfl) rfl
    · intro _ c hc
      unfold awaitClock at hc
      split at hc <;> cases hc
      · exact Accounts.explains (.none rfl) rfl
      · exact Accounts.explains (.none rfl) rfl
  | reply v =>
    cases pending with
    | nil => cases hs
    | cons p pending =>
      cases hs
      exact Accounts.explains (resume_accounts v p) rfl
  | raise f =>
    cases pending with
    | nil => cases hs
    | cons p pending =>
      cases hs
      exact Accounts.explains (abandon_accounts p f) rfl

/-! ### What steps leave of an engine -/

namespace RunState

theorem after_ne_idle {state : RunState} (h : state ≠ .idle) (s : Signal) : state.after s ≠ .idle := by
  cases state
  case idle => exact absurd rfl h
  all_goals cases s <;> decide

theorem after_cancelling (s : Signal) : after .cancelling s = .cancelling := by
  cases s <;> rfl

theorem foldl_after_ne_idle {state : RunState} (h : state ≠ .idle) (signals : List Signal) :
    signals.foldl after state ≠ .idle := by
  induction signals generalizing state with
  | nil => exact h
  | cons s signals ih => exact ih (after_ne_idle h s)

end RunState

/-- Only signals of host code change the state of a run in a step. -/
theorem step_state {c c' : Config σ} (hs : (step c).config? = some c') :
    c'.machine.engine.state = c.hostWork.signals.foldl RunState.after c.machine.engine.state := by
  rw [(step_explains hs).engine, ← (kept_foldl_onEngine c.events c.machine.engine).state]
  rfl

theorem step_hosts {c c' : Config σ} (hs : (step c).config? = some c') :
    c'.machine.engine.hosts = c.machine.engine.hosts := by
  rw [(step_explains hs).engine]
  exact (kept_foldl_onEngine c.events c.machine.engine).hosts

end Logo
