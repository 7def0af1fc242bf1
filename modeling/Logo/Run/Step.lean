import Logo.Run.Config

/-!
# One step of a run

`step` is the whole evaluator. Everything a program does to the outside happens
in an `Act`, behind a checkpoint: a paused run waits there, a cancelled one
gives up there. A loop suspends the run once at the start of every pass.
-/

namespace Logo
set_option autoImplicit false

/-- Combine operands for as long as the last operator binds at least as
strongly as `strength`. -/
def Chain.settle (strength : Nat) (operands : List Value) : List Operator → Except Fault Chain
  | [] => .ok ⟨operands, []⟩
  | op :: operators =>
    if strength ≤ op.precedence then
      match operands with
      | b :: a :: rest =>
        match op.apply a b with
        | .ok v => Chain.settle strength (v :: rest) operators
        | .error f => .error f
      | _ => .error (.notEnoughInputs op.symbol)
    else .ok ⟨operands, op :: operators⟩

variable {σ : Type}

/-- Run a list of instructions in place of what is left of the current one. -/
def enter (m : Machine σ) (items tokens : List Value) (pending : List Pending) : Config σ :=
  match items with
  | [] => ⟨m, .reply none, tokens, pending⟩
  | items => ⟨m, .expression, items, .sequence tokens :: pending⟩

/-- Start reading the inputs of a call. -/
def Gathering.start (p : Procedure) (parenthesised : Bool) : Gathering :=
  ⟨p, [], p.arity, parenthesised⟩

/-- Make the call with the inputs read so far. -/
def Gathering.call (g : Gathering) : Focus := .checkpoint (.call g.procedure g.inputs.reverse)

/-- Read the inputs of a call to the procedure named by a word. -/
def callNamed (m : Machine σ) (name : String) (parenthesised : Bool) (tokens : List Value)
    (pending : List Pending) : Config σ :=
  match m.procedure name with
  | .ok p => ⟨m, .gather (Gathering.start p parenthesised), tokens, pending⟩
  | .error f => ⟨m, .raise f, tokens, pending⟩

/-- Behind an opening parenthesis: a call if a word follows, else a group. -/
def openParen (m : Machine σ) (tokens : List Value) (pending : List Pending) : Config σ :=
  match tokens with
  | [] => ⟨m, .raise .missingCloseParen, tokens, pending⟩
  | token :: rest =>
    match Role.of token with
    | .word name => callNamed m name true rest pending
    | .closeParen => ⟨m, .raise (.unexpected ")"), tokens, pending⟩
    | _ => ⟨m, .expression, tokens, .group :: pending⟩

/-- Read one operand. -/
def readOperand (m : Machine σ) (tokens : List Value) (pending : List Pending) : Config σ :=
  match tokens with
  | [] => ⟨m, .raise (.unexpected "end of line"), tokens, pending⟩
  | token :: rest =>
    match Role.of token with
    | .literal v => ⟨m, .checkpoint (.literal v), rest, pending⟩
    | .quoted w => ⟨m, .checkpoint (.literal (.text w)), rest, pending⟩
    | .reference name => ⟨m, .checkpoint (.read name), rest, pending⟩
    | .openParen => openParen m rest pending
    | .closeParen => ⟨m, .raise (.unexpected ")"), rest, pending⟩
    | .operator .subtract =>
      if atInputEnd rest then ⟨m, .raise (.notEnoughInputs Operator.subtract.symbol), rest, pending⟩
      else ⟨m, .operand, rest, .negation :: pending⟩
    | .operator op => ⟨m, .raise (.unexpected op.symbol), rest, pending⟩
    | .word name => callNamed m name false rest pending

/-- Go on with a chain: take the operator ahead, or else combine what is left. -/
def readChain (m : Machine σ) (c : Chain) (tokens : List Value) (pending : List Pending) :
    Config σ :=
  match operatorAhead? tokens with
  | none =>
    match Chain.settle 0 c.operands c.operators with
    | .ok c => ⟨m, .reply c.operands.head?, tokens, pending⟩
    | .error f => ⟨m, .raise f, tokens, pending⟩
  | some op =>
    let tokens := tokens.tail
    match Chain.settle op.precedence c.operands c.operators with
    | .error f => ⟨m, .raise f, tokens, pending⟩
    | .ok c =>
      match tokens with
      | [] => ⟨m, .raise (.notEnoughInputs op.symbol), tokens, pending⟩
      | producer :: _ =>
        if atInputEnd tokens then ⟨m, .raise (.notEnoughInputs op.symbol), tokens, pending⟩
        else
          let c := { c with operators := op :: c.operators }
          ⟨m, .operand, tokens, .rightOperand c op producer :: pending⟩

/-- Go on reading the inputs of a call. -/
def readInputs (m : Machine σ) (g : Gathering) (tokens : List Value) (pending : List Pending) :
    Config σ :=
  if g.parenthesised then
    match tokens with
    | [] => ⟨m, .raise .missingCloseParen, tokens, pending⟩
    | token :: rest =>
      match Role.of token with
      | .closeParen =>
        if g.missing = 0 then ⟨m, g.call, rest, pending⟩
        else ⟨m, .raise (.notEnoughInputs g.procedure.name), rest, pending⟩
      | _ => ⟨m, .expression, tokens, .input g token :: pending⟩
  else if g.missing = 0 then ⟨m, g.call, tokens, pending⟩
  else
    match tokens with
    | [] => ⟨m, .raise (.notEnoughInputs g.procedure.name), tokens, pending⟩
    | token :: _ =>
      if atInputEnd tokens then ⟨m, .raise (.notEnoughInputs g.procedure.name), tokens, pending⟩
      else ⟨m, .expression, tokens, .input g token :: pending⟩

/-- The name of a template's parameter: a text, with a mark or without. -/
def parameter (caller : String) (v : Value) : Except Fault String :=
  match v with
  | .text s => .ok (unmarked s)
  | v => .error (.badTemplate caller v)

/-- Call a procedure on behalf of a template. -/
def callWith (m : Machine σ) (p : Procedure) (inputs tokens : List Value)
    (pending : List Pending) : Config σ :=
  if inputs.length < p.arity then ⟨m, .raise (.notEnoughInputs p.name), tokens, pending⟩
  else ⟨m, .checkpoint (.call p inputs), tokens, pending⟩

/-- Run a list template: the parameters are its first member, and the others
run in a frame of their own. -/
def applyList (m : Machine σ) (caller : String) (template inputs tokens : List Value)
    (pending : List Pending) : Config σ :=
  match template with
  | .list params :: body =>
    if inputs.length < params.length then ⟨m, .raise (.notEnoughInputs caller), tokens, pending⟩
    else
      match params.mapM (parameter caller) with
      | .error f => ⟨m, .raise f, tokens, pending⟩
      | .ok names => enter (m.openFrame (names.zip inputs)) body tokens (.template :: pending)
  | template => ⟨m, .raise (.badTemplate caller (.list template)), tokens, pending⟩

/-- Apply a template: a procedure, the name of one, or a list. -/
def applyTemplate (m : Machine σ) (caller : String) (template : Value) (inputs tokens : List Value)
    (pending : List Pending) : Config σ :=
  match template with
  | .procedure p => callWith m p inputs tokens pending
  | .text s =>
    let name := match s.toList with
      | '"' :: cs => String.ofList cs
      | _ => s
    match m.procedure name with
    | .ok p => callWith m p inputs tokens pending
    | .error f => ⟨m, .raise f, tokens, pending⟩
  | .list items => applyList m caller items inputs tokens pending
  | v => ⟨m, .raise (.badTemplate caller v), tokens, pending⟩

/-- Go on with what a primitive left to be done. -/
def carryOut (m : Machine σ) (e : Effect) (tokens : List Value) (pending : List Pending) :
    Config σ :=
  match e with
  | .reply v => ⟨m, .reply v, tokens, pending⟩
  | .block items => enter m items tokens pending
  | .loop (.times block begun total) =>
    ⟨m.openCounter, .turn (.times block begun total), tokens, .counter :: pending⟩
  | .loop l => ⟨m, .turn l, tokens, pending⟩
  | .template caller template inputs => applyTemplate m caller template inputs tokens pending
  | .sleep nanoseconds => ⟨m, .sleep (m.engine.clock + nanoseconds), tokens, pending⟩

/-- Call a procedure defined by a program, in a frame and an activation of its own. -/
def callDefined (m : Machine σ) (params : List String) (body inputs tokens : List Value)
    (pending : List Pending) : Config σ :=
  if m.engine.depthLimit ≤ m.live.activations.length then
    ⟨m, .raise (.tooDeep m.engine.depthLimit), tokens, pending⟩
  else enter (m.openFrame (params.zip inputs)).openActivation body tokens (.activation :: pending)

/-- Call a host function with exactly the inputs it wants. -/
def callHost (m : Machine σ) (id : Nat) (name : String) (inputs tokens : List Value)
    (pending : List Pending) : Config σ :=
  match m.engine.hosts[id]? with
  | none => ⟨m, .raise (.notProcedure name), tokens, pending⟩
  | some (.async _ _) => ⟨m, .ask id inputs 0, tokens, pending⟩
  | some (.sync kinds body) =>
    let work := HostBody.apply kinds body inputs m.engine.hostView
    let m := { m with engine := m.engine.afterHost work }
    match work.answer with
    | .ok v => ⟨m, .reply v, tokens, pending⟩
    | .error f => ⟨m, .raise f, tokens, pending⟩

/-- Call a procedure. One that takes no further inputs gets only the first ones. -/
def callProcedure (m : Machine σ) (p : Procedure) (inputs tokens : List Value)
    (pending : List Pending) : Config σ :=
  match p with
  | .primitive p =>
    let inputs := if p.variadic then inputs else inputs.take p.arity
    match p.perform inputs m with
    | (.ok e, m) => carryOut m e tokens pending
    | (.error f, m) => ⟨m, .raise f, tokens, pending⟩
  | .host id name arity => callHost m id name (inputs.take arity) tokens pending
  | .defined _ _ params body => callDefined m params body inputs tokens pending

/-- Begin a pass of a loop. -/
def beginPass (m : Machine σ) (l : Loop) (tokens : List Value) (pending : List Pending) :
    Config σ :=
  match l with
  | .times block begun total =>
    enter (m.setCounter (begun + 1)) block tokens (.loop (.times block (begun + 1) total) :: pending)
  | .endless block => enter m block tokens (.loop l :: pending)
  | .each template (item :: items) =>
    applyTemplate m Primitive.foreach.name template [item] tokens (.loop (.each template items) :: pending)
  | .collect template (item :: items) outputs =>
    applyTemplate m Primitive.map.name template [item] tokens
      (.loop (.collect template items outputs) :: pending)
  | .each _ [] | .collect _ [] _ => ⟨m, .turn l, tokens, pending⟩

/-- What a checkpoint lets the run do. -/
def act (m : Machine σ) (a : Act) (tokens : List Value) (pending : List Pending) : Config σ :=
  match a with
  | .literal v => ⟨m, .reply (some v), tokens, pending⟩
  | .read name =>
    match m.lookup? name with
    | some v => ⟨m, .reply (some v), tokens, pending⟩
    | none => ⟨m, .raise (.noValue name), tokens, pending⟩
  | .call p inputs => callProcedure m p inputs tokens pending
  | .pass l => beginPass m l tokens pending

/-- The outcome of a loop that has no further pass. -/
def Loop.outcome? : Loop → Option (Option Value)
  | .times _ begun total => if begun < total then none else some none
  | .endless _ => none
  | .each _ [] => some none
  | .each _ _ => none
  | .collect _ [] outputs => some (some (.list outputs.reverse))
  | .collect _ _ _ => none

/-- A pass of a loop has ended with `v`. -/
def afterPass (m : Machine σ) (l : Loop) (v : Option Value) (tokens : List Value)
    (pending : List Pending) : Config σ :=
  match l, v with
  | .collect template items outputs, some v =>
    ⟨m, .turn (.collect template items (v :: outputs)), tokens, pending⟩
  | .collect template _ _, none =>
    if m.isStopped then ⟨m, .reply none, tokens, pending⟩
    else ⟨m, .raise (.noOutput template.render Primitive.map.name), tokens, pending⟩
  | _, some v => ⟨m, .raise (.unusedValue v), tokens, pending⟩
  | l, none =>
    if m.isStopped then ⟨m, .reply none, tokens, pending⟩
    else ⟨m, .turn l, tokens, pending⟩

/-- Hand an outcome to what is waiting for it. -/
def resume (m : Machine σ) (v : Option Value) (tokens : List Value) (p : Pending)
    (pending : List Pending) : Config σ :=
  match p with
  | .sequence saved =>
    if m.isStopped then ⟨m, .reply none, saved, pending⟩
    else
      match v, tokens with
      | v, [] => ⟨m, .reply v, saved, pending⟩
      | some v, _ => ⟨m, .raise (.unusedValue v), saved, pending⟩
      | none, _ => ⟨m, .expression, tokens, p :: pending⟩
  | .firstOperand =>
    match operatorAhead? tokens, v with
    | none, v => ⟨m, .reply v, tokens, pending⟩
    | some _, some v => ⟨m, .chain ⟨[v], []⟩, tokens, pending⟩
    | some op, none => ⟨m, .raise (.notEnoughInputs op.symbol), tokens, pending⟩
  | .rightOperand c op producer =>
    match v with
    | some v => ⟨m, .chain { c with operands := v :: c.operands }, tokens, pending⟩
    | none => ⟨m, .raise (.noOutput producer.render op.symbol), tokens, pending⟩
  | .negation =>
    match v with
    | none => ⟨m, .raise (.notEnoughInputs Operator.subtract.symbol), tokens, pending⟩
    | some v =>
      match negate Operator.subtract.symbol v with
      | .ok v => ⟨m, .reply (some v), tokens, pending⟩
      | .error f => ⟨m, .raise f, tokens, pending⟩
  | .group =>
    match tokens with
    | [] => ⟨m, .raise .missingCloseParen, tokens, pending⟩
    | _ :: rest =>
      if atInputEnd tokens then ⟨m, .reply v, rest, pending⟩
      else ⟨m, .raise .tooMuchInsideParens, tokens, pending⟩
  | .input g producer =>
    match v with
    | some v =>
      ⟨m, .gather { g with inputs := v :: g.inputs, missing := g.missing - 1 }, tokens, pending⟩
    | none => ⟨m, .raise (.noOutput producer.render g.procedure.name), tokens, pending⟩
  | .activation =>
    let output := m.output?
    let m := m.closeFrame.closeActivation
    match v with
    | some v => ⟨m, .raise (.unusedValue v), tokens, pending⟩
    | none => ⟨m, .reply output, tokens, pending⟩
  | .template => ⟨m.closeFrame, .reply v, tokens, pending⟩
  | .counter => ⟨m.closeCounter, .reply v, tokens, pending⟩
  | .loop l => afterPass m l v tokens pending

/-- Give up one thing that is waiting. -/
def abandon (m : Machine σ) (p : Pending) : Machine σ :=
  match p with
  | .activation => m.closeFrame.closeActivation
  | .template => m.closeFrame
  | .counter => m.closeCounter
  | _ => m

/-- Ask an asynchronous host function. -/
def askHost (m : Machine σ) (id : Nat) (inputs : List Value) (asked : Nat) (tokens : List Value)
    (pending : List Pending) : Next σ :=
  match m.engine.hosts[id]? with
  | some (.async _ ask) =>
    let work := ask inputs asked m.engine.hostView
    let m := { m with engine := m.engine.afterHost work }
    match work.answer with
    | .ready (.ok v) => .go ⟨m, .reply v, tokens, pending⟩
    | .ready (.error f) => .go ⟨m, .raise f, tokens, pending⟩
    | .pending => .suspend .host ⟨m, .ask id inputs (asked + 1), tokens, pending⟩
    | .hopeless => .suspend .hopeless ⟨m, .ask id inputs (asked + 1), tokens, pending⟩
  | _ => .go ⟨m, .reply none, tokens, pending⟩

/-- Wait for the clock. -/
def awaitClock (m : Machine σ) (deadline : Nat) (tokens : List Value) (pending : List Pending) :
    Next σ :=
  if deadline ≤ m.engine.clock then .go ⟨m, .reply none, tokens, pending⟩
  else .suspend (.clock deadline) ⟨m, .sleep deadline, tokens, pending⟩

/-- Wait for an answer and for a break at once; `answer` is what looking for the answer
gives. Whichever has come ends the wait, and if both have, the one looked for first. -/
def race (m : Machine σ) (answer : Next σ) (tokens : List Value) (pending : List Pending) : Next σ :=
  if m.engine.answersFirst then
    match answer with
    | .suspend why c =>
      match c.machine.engine.state with
      | .cancelling => .go { c with focus := .raise .stopped }
      | _ => .suspend why c
    | next => next
  else
    match m.engine.state with
    | .cancelling => .go ⟨m, .raise .stopped, tokens, pending⟩
    | _ => answer

/-- One step of a run. -/
def step : Config σ → Next σ
  | ⟨m, focus, tokens, pending⟩ =>
    match focus with
    | .expression => .go ⟨m, .operand, tokens, .firstOperand :: pending⟩
    | .operand => .go (readOperand m tokens pending)
    | .chain c => .go (readChain m c tokens pending)
    | .gather g => .go (readInputs m g tokens pending)
    | .turn l =>
      match l.outcome? with
      | some v => .go ⟨m, .reply v, tokens, pending⟩
      | none => .suspend .pass ⟨m, .checkpoint (.pass l), tokens, pending⟩
    | .checkpoint a =>
      match m.engine.state with
      | .cancelling => .go ⟨m, .raise .stopped, tokens, pending⟩
      | .paused => .suspend .paused ⟨m, .checkpoint a, tokens, pending⟩
      | .running | .idle => .go (act m a tokens pending)
    | .ask id inputs asked => race m (askHost m id inputs asked tokens pending) tokens pending
    | .sleep deadline => race m (awaitClock m deadline tokens pending) tokens pending
    | .reply v =>
      match pending with
      | [] => .resolved (.ok v) m
      | p :: pending => .go (resume m v tokens p pending)
    | .raise f =>
      match pending with
      | [] => .resolved (.error f) m
      | p :: pending => .go ⟨abandon m p, .raise f, tokens, pending⟩

end Logo
