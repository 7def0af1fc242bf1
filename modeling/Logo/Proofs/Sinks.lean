import Logo.Proofs.Aside
import Logo.Proofs.Events
import Logo.Proofs.Turns

/-!
# The sink is only a sink

A program prints by handing chunks of text to the sink of its engine; nothing is ever read
back from there. `Config.chunk?` is the chunk that a coming step hands over, one for each call of
`print`, `show` or `type`, and a sink is written to by nothing else (`step_sink`). So an engine
can be given any sink: all that is done on it is done alike, a recorder gets the chunks one by
one, and a buffer their concatenation, however often and wherever in the session its text is
taken.
-/

namespace Logo
set_option autoImplicit false

variable {σ : Type}

/-! ### What a step prints -/

/-- The chunk that a printing primitive hands over. -/
def Primitive.chunk? (p : Primitive) (inputs : List Value) : Option String :=
  match p with
  | print => some (joined " " (inputs.map Value.printed) ++ "\n")
  | display => some (joined " " (inputs.map Value.render) ++ "\n")
  | type => some (joined " " (inputs.map Value.printed))
  | _ => none

def Act.chunk? : Act → Option String
  | .call (.primitive p) inputs => p.chunk? (p.given inputs)
  | _ => none

/-- The chunk that the coming step hands over. -/
def Config.chunk? (c : Config σ) : Option String :=
  match c.focus, c.machine.engine.state with
  | .checkpoint a, .running | .checkpoint a, .idle => a.chunk?
  | _, _ => none

/-- The coming step is a call of `print`, `show` or `type`. -/
def Config.callsPrinter (c : Config σ) : Bool :=
  match c.focus, c.machine.engine.state with
  | .checkpoint (.call (.primitive p) _), .running | .checkpoint (.call (.primitive p) _), .idle =>
    p == .print || p == .display || p == .type
  | _, _ => false

/-- A call hands over one chunk. -/
theorem Config.isSome_chunk? (c : Config σ) : c.chunk?.isSome = c.callsPrinter := by
  obtain ⟨m, focus, tokens, pending⟩ := c
  unfold chunk? callsPrinter
  cases focus with
  | checkpoint a =>
    cases a with
    | call p inputs =>
      cases p with
      | primitive p => cases m.engine.state <;> cases p <;> rfl
      | _ => cases m.engine.state <;> rfl
    | _ => cases m.engine.state <;> rfl
  | _ => rfl

/-- The chunks handed over at these moments, in order. -/
def printedAt (moments : List (Config σ)) : List String := moments.filterMap Config.chunk?

theorem printedAt_append (moments later : List (Config σ)) :
    printedAt (moments ++ later) = printedAt moments ++ printedAt later :=
  List.filterMap_append

theorem length_printedAt (moments : List (Config σ)) :
    (printedAt moments).length = moments.countP Config.callsPrinter := by
  rw [printedAt, List.length_filterMap_eq_countP]
  simp only [Config.isSome_chunk?]

theorem Sink.foldl_write_recorder (chunks written : List String) :
    written.foldl write (recorder chunks) = recorder (written.reverse ++ chunks) := by
  induction written generalizing chunks with
  | nil => rfl
  | cons chunk written ih => rw [List.foldl_cons, write, ih, List.reverse_cons, List.append_assoc,
      List.singleton_append]

theorem Sink.foldl_write_buffer (text : String) (written : List String) :
    written.foldl write (buffer text) = buffer (text ++ String.join written) := by
  induction written generalizing text with
  | nil => rw [List.foldl_nil, String.join_nil, String.append_empty]
  | cons chunk written ih => rw [List.foldl_cons, write, ih, String.join_cons, String.append_assoc]

def Event.chunk? : Event → Option String
  | printed chunk => some chunk
  | _ => none

/-- The sink gets the chunks of the events, in order. -/
theorem foldl_onEngine_sink (es : List Event) (e : Engine σ) :
    (es.foldl Event.onEngine e).sink = (es.filterMap Event.chunk?).foldl Sink.write e.sink := by
  induction es generalizing e with
  | nil => rfl
  | cons event es ih =>
    rw [List.foldl_cons, ih]
    cases event <;> rfl

/-- Events of which none is printing. -/
def Wordless (es : List Event) : Prop := es.filterMap Event.chunk? = []

theorem Wordless.append {es es' : List Event} (h : Wordless es) (h' : Wordless es') :
    Wordless (es ++ es') := by
  unfold Wordless at *
  rw [List.filterMap_append, h, h', List.append_nil]

theorem frameEvents_wordless (m : Machine σ) (bindings : List (String × Value)) :
    Wordless (frameEvents m bindings) := by
  refine List.filterMap_eq_nil_iff.2 fun event h => ?_
  obtain rfl | h := List.mem_cons.1 h
  · rfl
  · obtain ⟨b, -, rfl⟩ := List.mem_map.1 h
    rfl

theorem templateEvents_wordless (m : Machine σ) (caller : String) (template : Value)
    (inputs : List Value) : Wordless (templateEvents m caller template inputs) := by
  unfold templateEvents
  split
  · split
    · rfl
    · split
      · rfl
      · exact frameEvents_wordless m _
  · rfl

theorem nameEvents_wordless {events : Scopes → String → List Event} {after : Scopes → String → Scopes}
    (h : ∀ s name, Wordless (events s name)) (s : Scopes) (names : List String) :
    Wordless (nameEvents events after s names) := by
  induction names generalizing s with
  | nil => rfl
  | cons name names ih => exact (h s name).append (ih (after s name))

theorem localEvents_wordless (f : FrameId) (s : Scopes) (name : String) :
    Wordless (localEvents f s name) := by
  unfold localEvents
  split <;> rfl

theorem globalEvents_wordless (f : FrameId) (s : Scopes) (name : String) :
    Wordless (globalEvents f s name) := by
  unfold globalEvents
  split
  · split <;> rfl
  · split <;> rfl

theorem assignEvents_wordless (m : Machine σ) (name : String) (v : Value) :
    Wordless (assignEvents m name v) := by
  unfold assignEvents
  split <;> rfl

theorem finishEvents_wordless (m : Machine σ) (v : Option Value) :
    Wordless (Primitive.finishEvents m v) := by
  unfold Primitive.finishEvents
  split <;> rfl

/-- A primitive prints its chunk and nothing else. -/
theorem Primitive.events_chunk (p : Primitive) (inputs : List Value) (m : Machine σ) :
    (p.events inputs m).filterMap Event.chunk? = (p.chunk? inputs).toList := by
  cases p
  case output =>
    simp only [events]
    split
    · exact finishEvents_wordless m _
    · rfl
  case stop => exact finishEvents_wordless m _
  case define =>
    simp only [events]
    split <;> rfl
  case make =>
    simp only [events]
    split
    · exact assignEvents_wordless m _ _
    · rfl
  case localName =>
    simp only [events]
    split
    · exact nameEvents_wordless (localEvents_wordless _) _ _
    · rfl
  case globalName =>
    simp only [events]
    split
    · exact nameEvents_wordless (globalEvents_wordless _) _ _
    · rfl
  all_goals rfl

theorem Act.events_chunk (m : Machine σ) (a : Act) :
    (a.events m).filterMap Event.chunk? = a.chunk?.toList := by
  cases a with
  | literal v => rfl
  | read name => rfl
  | pass l =>
    show Wordless (l.events m)
    unfold Loop.events
    split
    · exact templateEvents_wordless m _ _ _
    · exact templateEvents_wordless m _ _ _
    · rfl
  | call p inputs =>
    cases p with
    | primitive p =>
      have hplan : Wordless (Primitive.planEvents (p.perform (p.given inputs) m)) := by
        unfold Primitive.planEvents
        split
        · exact templateEvents_wordless _ _ _ _
        · rfl
      show (p.events (p.given inputs) m
        ++ Primitive.planEvents (p.perform (p.given inputs) m)).filterMap _ = _
      rw [List.filterMap_append, p.events_chunk, hplan, List.append_nil]
      rfl
    | host id name arity =>
      simp only [Act.events, Procedure.events]
      split <;> rfl
    | defined id name params body =>
      simp only [Act.events, Procedure.events]
      split
      · rfl
      · exact frameEvents_wordless m _

theorem Config.events_chunk (c : Config σ) :
    c.events.filterMap Event.chunk? = c.chunk?.toList := by
  obtain ⟨m, focus, tokens, pending⟩ := c
  cases focus with
  | checkpoint a =>
    cases hs : m.engine.state with
    | idle | running =>
      simp only [Config.events, Config.chunk?, hs]
      exact Act.events_chunk m a
    | _ => simp [Config.events, Config.chunk?, hs]
  | _ => rfl

/-- **One step** hands over its chunk, if it has one, and does nothing else to the sink. -/
theorem step_sink {c c' : Config σ} (h : (step c).config? = some c') :
    c'.machine.engine.sink = c.chunk?.toList.foldl Sink.write c.machine.engine.sink := by
  rw [(step_explains h).engine, ← c.events_chunk]
  exact foldl_onEngine_sink c.events c.machine.engine

/-! ### What a poll prints -/

/-- **The steps of a poll** hand over their chunks in order. -/
theorem advance_sink (fuel : Nat) (c : Config σ) :
    (advance fuel c).polled.2.2.sink
      = (printedAt (c.moments fuel)).foldl Sink.write c.machine.engine.sink := by
  induction fuel generalizing c with
  | zero => rfl
  | succ fuel ih =>
    have hcons : ∀ later, printedAt (c :: later) = c.chunk?.toList ++ printedAt later := fun later => by
      rw [printedAt, List.filterMap_cons]
      cases c.chunk? <;> rfl
    rw [advance, Config.moments]
    cases hs : step c with
    | go c' =>
      have hstep := step_sink (show (step c).config? = some c' by rw [hs]; rfl)
      simp only
      rw [ih c', hstep, hcons, List.foldl_append]
    | suspend why c' =>
      have hstep := step_sink (show (step c).config? = some c' by rw [hs]; rfl)
      rw [hcons, List.foldl_append, ← hstep]
      rfl
    | resolved outcome m =>
      obtain ⟨-, rfl, hfocus⟩ := step_resolved hs
      have hnone : c.chunk? = none := by
        obtain ⟨v, hf, -⟩ | ⟨f, hf, -⟩ := hfocus
        all_goals simp only [Config.chunk?, hf]
      rw [hcons, hnone]
      rfl

theorem Engine.handle_sink (e : Engine σ) (h : Handling σ) : (e.handle h).sink = e.sink := by
  cases h with
  | signal s =>
    show (e.answerSignal s).2.sink = _
    rw [e.answerSignal_engine s]
  | _ => rfl

theorem Engine.drop_sink (e : Engine σ) (r : Run) : (e.drop r).sink = e.sink := by
  cases r <;> rfl

/-- The sink gets what the steps of a deed hand over, and nothing else. -/
theorem Bench.make_sink (b : Bench σ) (deed : Deed σ) :
    (b.make deed).engine.sink = (printedAt (b.momentsOf deed)).foldl Sink.write b.engine.sink := by
  cases deed with
  | start place source => exact b.engine.drop_sink _
  | drop place => exact b.engine.drop_sink _
  | handle h => exact b.engine.handle_sink h
  | poll place fuel =>
    show (b.engine.poll fuel (b.runs place)).2.2.sink = _
    simp only [Bench.momentsOf]
    cases hopen : (b.runs place).opening? b.engine with
    | none =>
      obtain hpoll | hpoll := Engine.poll_of_closed hopen fuel
      all_goals
        rw [hpoll]
        rfl
    | some c =>
      have hsink : c.machine.engine.sink = b.engine.sink := by
        obtain ⟨source, program, -, -, rfl⟩ | ⟨t, -, rfl⟩ := Run.opening?_cases hopen
        · rfl
        · rfl
      rw [Engine.poll_of_opening? hopen, advance_sink, hsink]

/-! ### Another sink -/

/-- The engine with another sink. -/
def Engine.printingTo (s : Sink) (e : Engine σ) : Engine σ := { e with sink := s }

/-- The engine with its sink taken away. -/
def Engine.silenced (e : Engine σ) : Engine σ := e.printingTo .silent

theorem Engine.aside_silenced : Engine.Aside (Engine.silenced : Engine σ → Engine σ) where
  scopes := fun _ => rfl
  definitions := fun _ => rfl
  hosts := fun _ => rfl
  setScopes := fun _ _ => rfl
  define := fun _ _ _ => rfl
  print := fun _ _ => rfl
  state := fun _ => rfl
  answersFirst := fun _ => rfl
  clock := fun _ => rfl
  hostView := fun _ => rfl
  afterHost := fun _ _ => rfl
  setState := fun _ _ => rfl
  handle := by
    intro e h
    cases h with
    | signal s =>
      simp only [Engine.handle, Engine.answerSignal_engine]
      rfl
    | _ => rfl

theorem Config.indifferent_silenced (c : Config σ) : c.Indifferent Engine.silenced := fun _ => .inl rfl

/-- What is printed does not depend on where it goes. -/
theorem printedAt_silenced (moments : List (Config σ)) :
    printedAt (moments.map (·.lift Engine.silenced [])) = printedAt moments := by
  rw [printedAt, List.filterMap_map]
  rfl

/-! ### Sessions in which the printed text is taken now and then -/

inductive Errand (σ : Type) where
  | deed (d : Deed σ)
  /-- Take the text in the buffer. -/
  | drain

def Errand.deed? : Errand σ → Option (Deed σ)
  | deed d => some d
  | drain => none

namespace Bench

def drained (b : Bench σ) : Bench σ := { b with engine := b.engine.printingTo b.engine.sink.take.2 }

def serve (b : Bench σ) : List (Errand σ) → Bench σ
  | [] => b
  | .deed d :: errands => (b.make d).serve errands
  | .drain :: errands => b.drained.serve errands

/-- What is answered to the deeds of a session. -/
def served (b : Bench σ) : List (Errand σ) → List (Option Polled)
  | [] => []
  | .deed d :: errands => b.answer? d :: (b.make d).served errands
  | .drain :: errands => b.drained.served errands

/-- The texts taken in a session. -/
def taken (b : Bench σ) : List (Errand σ) → List String
  | [] => []
  | .deed d :: errands => (b.make d).taken errands
  | .drain :: errands => b.engine.sink.take.1 :: b.drained.taken errands

/-- The moments at which runs take steps in a session. -/
def momentsServed (b : Bench σ) : List (Errand σ) → List (Config σ)
  | [] => []
  | .deed d :: errands => b.momentsOf d ++ (b.make d).momentsServed errands
  | .drain :: errands => b.drained.momentsServed errands

/-- The chunks handed over in a session. -/
def printed (b : Bench σ) (errands : List (Errand σ)) : List String :=
  printedAt (b.momentsServed errands)

/-- Without its sink, a session is what its deeds do. -/
theorem serve_silenced (b : Bench σ) (errands : List (Errand σ)) :
    (b.serve errands).mapEngine Engine.silenced
        = (b.mapEngine Engine.silenced).follow (errands.filterMap Errand.deed?) ∧
      b.served errands = (b.mapEngine Engine.silenced).answers (errands.filterMap Errand.deed?) ∧
      b.printed errands
        = printedAt ((b.mapEngine Engine.silenced).moments (errands.filterMap Errand.deed?)) := by
  induction errands generalizing b with
  | nil => exact ⟨rfl, rfl, rfl⟩
  | cons errand errands ih =>
    cases errand with
    | drain => exact ih b.drained
    | deed d =>
      have hnone : ∀ c ∈ b.momentsOf d, c.Indifferent Engine.silenced :=
        fun c _ => c.indifferent_silenced
      have hmoments := momentsOf_aside Engine.aside_silenced hnone
      obtain ⟨hmake, hanswer⟩ := make_aside Engine.aside_silenced hnone
      obtain ⟨hserve, hserved, hprinted⟩ := ih (b.make d)
      simp only [List.filterMap_cons, Errand.deed?, follow, answers, moments, hmake, hanswer,
        hmoments]
      refine ⟨hserve, congrArg (b.answer? d :: ·) hserved, ?_⟩
      simp only [printed, printedAt, momentsServed, List.filterMap_append] at hprinted ⊢
      rw [hprinted]
      exact congrArg (· ++ _) (printedAt_silenced (b.momentsOf d)).symm

/-- Sessions on two engines that differ in the sink only. -/
theorem serve_alike (e : Engine σ) (errands : List (Errand σ)) (s s' : Sink) :
    let b := of (e.printingTo s)
    let b' := of (e.printingTo s')
    (b.serve errands).mapEngine Engine.silenced = (b'.serve errands).mapEngine Engine.silenced ∧
      b.served errands = b'.served errands ∧ b.printed errands = b'.printed errands := by
  intro b b'
  obtain ⟨hserve, hserved, hprinted⟩ := b.serve_silenced errands
  obtain ⟨hserve', hserved', hprinted'⟩ := b'.serve_silenced errands
  exact ⟨hserve.trans hserve'.symm, hserved.trans hserved'.symm, hprinted.trans hprinted'.symm⟩

/-- A recorder keeps the chunks apart, whatever is taken. -/
theorem serve_recorder {b : Bench σ} {chunks : List String} (hb : b.engine.sink = .recorder chunks)
    (errands : List (Errand σ)) :
    (b.serve errands).engine.sink = .recorder ((b.printed errands).reverse ++ chunks) := by
  induction errands generalizing b chunks with
  | nil => exact hb
  | cons errand errands ih =>
    cases errand with
    | drain => exact ih (b := b.drained) (by rw [drained, hb]; rfl)
    | deed d =>
      have hmake : (b.make d).engine.sink = .recorder ((printedAt (b.momentsOf d)).reverse ++ chunks) := by
        rw [b.make_sink d, hb, Sink.foldl_write_recorder]
      rw [serve, ih hmake, printed, printed, momentsServed, printedAt_append, List.reverse_append,
        List.append_assoc]

/-- The texts taken from a buffer and what is left in it are together what has been printed. -/
theorem serve_buffer {b : Bench σ} {text : String} (hb : b.engine.sink = .buffer text)
    (errands : List (Errand σ)) :
    String.join (b.taken errands) ++ (b.serve errands).engine.sink.text
      = text ++ String.join (b.printed errands) := by
  induction errands generalizing b text with
  | nil =>
    simp only [serve, taken, hb, Sink.text]
    simp [printed, printedAt, momentsServed]
  | cons errand errands ih =>
    cases errand with
    | drain =>
      have hdrained : b.drained.engine.sink = .buffer "" := by
        rw [drained, hb]
        rfl
      have htext : b.engine.sink.take.1 = text := by
        rw [hb]
        rfl
      have hrest := ih hdrained
      rw [String.empty_append] at hrest
      rw [serve, taken, htext, String.join_cons, String.append_assoc, hrest]
      rfl
    | deed d =>
      have hmake : (b.make d).engine.sink = .buffer (text ++ String.join (printedAt (b.momentsOf d))) := by
        rw [b.make_sink d, hb, Sink.foldl_write_buffer]
      rw [serve, taken, ih hmake, printed, printed, momentsServed, printedAt_append,
        String.join_append, String.append_assoc]

end Bench

/-- **The sink is only a sink.** Whatever is done on an engine, and wherever in between the text
in its buffer is taken: with another sink the same is answered, the same runs are there, and the
engine is the same but for the sink, with the same state, the same globals and the same signals
refused. A recorder gets one chunk for each call of `print`, `show` or `type`, and these are
together what is taken from a buffer in the end. -/
theorem sink_only_a_sink (e : Engine σ) (errands : List (Errand σ)) :
    (∀ s s' : Sink,
      let b := Bench.of (e.printingTo s)
      let b' := Bench.of (e.printingTo s')
      b'.served errands = b.served errands ∧
      (b'.serve errands).runs = (b.serve errands).runs ∧
      (b'.serve errands).engine
        = (b.serve errands).engine.printingTo (b'.serve errands).engine.sink ∧
      (b'.serve errands).engine.state = (b.serve errands).engine.state ∧
      (∀ name, (b'.serve errands).engine.global? name = (b.serve errands).engine.global? name) ∧
      (∀ signal, ((b'.serve errands).engine.answerSignal signal).1
        = ((b.serve errands).engine.answerSignal signal).1) ∧
      b'.printed errands = b.printed errands) ∧
    let recorded := Bench.of (e.printingTo (.recorder []))
    let buffered := Bench.of (e.printingTo (.buffer ""))
    (recorded.serve errands).engine.sink.chunks = recorded.printed errands ∧
    (recorded.printed errands).length = (recorded.momentsServed errands).countP Config.callsPrinter ∧
    String.join (recorded.serve errands).engine.sink.chunks
      = String.join (buffered.taken errands ++ [(buffered.serve errands).engine.sink.take.1]) := by
  constructor
  · intro s s' b b'
    obtain ⟨hserve, hserved, hprinted⟩ := Bench.serve_alike e errands s s'
    obtain ⟨hengine, hruns⟩ := Bench.mk.inj hserve
    have hwhole : (b'.serve errands).engine
        = (b.serve errands).engine.printingTo (b'.serve errands).engine.sink :=
      (congrArg (Engine.printingTo (b'.serve errands).engine.sink) hengine).symm
    refine ⟨hserved.symm, hruns.symm, hwhole, ?_, fun name => ?_, fun signal => ?_, hprinted.symm⟩
    · rw [hwhole]
      rfl
    · rw [hwhole]
      rfl
    · rw [hwhole]
      unfold Engine.answerSignal Engine.signal Engine.printingTo
      cases signal.apply (b.serve errands).engine.state <;> rfl
  · intro recorded buffered
    have hchunks : (recorded.serve errands).engine.sink.chunks = recorded.printed errands := by
      rw [Bench.serve_recorder (b := recorded) rfl errands]
      simp only [Sink.chunks, List.append_nil, List.reverse_reverse]
    refine ⟨hchunks, length_printedAt _, ?_⟩
    obtain ⟨-, -, hprinted⟩ := Bench.serve_alike e errands (.recorder []) (.buffer "")
    have hbuffer := Bench.serve_buffer (b := buffered) rfl errands
    rw [hchunks, hprinted, String.join_append, String.join_cons, String.join_nil,
      String.append_empty]
    rw [String.empty_append] at hbuffer
    exact hbuffer.symm

end Logo
