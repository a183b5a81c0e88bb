/-
**The discipline of the frames.**

The frames of the open blocks are a stack, whatever the instructions are: no check of the program is
needed for this.  An expression opens and closes no block, and can declare a variable in the
innermost frame only.  A block opens one frame, and closes it when its statements are done.  So a
statement leaves as many frames as it finds, and the names and marks of all but the innermost one as
they are; a block leaves those of the innermost one as well.  A run that succeeds closes all blocks,
and keeps the frame of the last outermost one.

Main results:

* `Machine.frames_discipline` — **the stack discipline**.
-/

import BindScript.Proofs.Machine.Comparison
import BindScript.Proofs.Scoping.Frames

namespace BindScript

/-- A declaration changes the innermost frame, which has to be there. -/
theorem Frames.declare_eq_ok {frames frames' : Frames} {name : String} {v : Option Value}
    (h : frames.declare name v = .ok frames') :
    ∃ f g outer, frames = f :: outer ∧ frames' = g :: outer := by
  cases frames with
  | nil => simp [Frames.declare] at h
  | cons f outer =>
    simp only [Frames.declare] at h
    split at h
    · exact ⟨f, _, outer, rfl, (Except.ok.inj h).symm⟩
    · exact ⟨f, _, outer, rfl, (Except.ok.inj h).symm⟩

/-- The value of a variable or leaf that can be seen in a frame. -/
def Frame.valueOf? (f : Frame) (name : String) : Option Value :=
  (Frame.live? f (splitName name).1).bind fun c => c.value.leaf? (splitName name).2

namespace Machine

variable {σ α β : Type}

theorem valueOf?_of_finished {m : Machine σ} (hframes : m.frames = []) (name : String) :
    m.valueOf? name = m.finished.bind fun f => Frame.valueOf? f name := by
  simp [valueOf?, Frame.valueOf?, hframes, Frames.find?, Option.bind_assoc]

/-! ### The same open blocks -/

/-- The open blocks are the same, nothing was declared in those around the innermost one, and no
outermost block was closed. -/
structure SameOuter (m m' : Machine σ) : Prop where
  count : m'.frames.length = m.frames.length
  outer : m'.frames.tail.map Frame.header = m.frames.tail.map Frame.header
  finished : m'.finished = m.finished

variable {m m' m'' : Machine σ}

theorem SameOuter.refl (m : Machine σ) : SameOuter m m := ⟨rfl, rfl, rfl⟩

theorem SameOuter.trans (h : SameOuter m m') (h' : SameOuter m' m'') : SameOuter m m'' :=
  ⟨h'.count.trans h.count, h'.outer.trans h.outer, h'.finished.trans h.finished⟩

theorem SameOuter.of_frames (hframes : m'.frames = m.frames)
    (hfinished : m'.finished = m.finished) :
    SameOuter m m' :=
  ⟨by rw [hframes], by rw [hframes], hfinished⟩

theorem SameOuter.of_headers (hheaders : m'.frames.map Frame.header = m.frames.map Frame.header)
    (hfinished : m'.finished = m.finished) : SameOuter m m' := by
  refine ⟨by simpa using congrArg List.length hheaders, ?_, hfinished⟩
  rw [List.map_tail, List.map_tail, hheaders]

theorem SameOuter.frames_ne_nil (h : SameOuter m m') (hm : m.frames ≠ []) : m'.frames ≠ [] := by
  rw [← List.length_pos_iff, h.count]
  exact List.length_pos_iff.2 hm

/-- If the computation succeeds, the open blocks are the same as in a state before it. -/
def Stays (m : Machine σ) (r : Option (Result σ α)) : Prop :=
  ∀ a m', r = some (.ok a, m') → SameOuter m m'

theorem stays_some {x : Result σ α} (h : SameOuter m x.2) : Stays m (some x) := by
  rintro a m' heq
  rw [Option.some.inj heq] at h
  exact h

theorem stays_error (e : RuntimeError) : Stays (α := α) m (some (.error e, m')) :=
  fun _ _ heq => absurd (congrArg Prod.fst (Option.some.inj heq)) (by simp)

theorem Stays.of_sameOuter {r : Option (Result σ α)} (h : SameOuter m m') (hr : Stays m' r) :
    Stays m r :=
  fun a n heq => h.trans (hr a n heq)

theorem Stays.andThen {r : Option (Result σ α)} {k : α → Machine σ → Option (Result σ β)}
    (hr : Stays m r) (hk : ∀ a n, r = some (.ok a, n) → SameOuter m n → Stays m (k a n)) :
    Stays m (andThen r k) := by
  intro b n heq
  rcases andThen_eq_some.1 heq with ⟨e, n', -, hfail⟩ | ⟨a, n', hok, hnext⟩
  · exact absurd (congrArg Prod.fst hfail) (by simp)
  · exact hk a n' hok (hr a n' hok) b n hnext

/-! ### Expressions -/

variable {host : Host σ} {code : Array Instruction} {ev : Machine σ → Option (Result σ Value)}

theorem fetch_stays (code : Array Instruction) (m : Machine σ) : Stays m (some (fetch code m)) := by
  intro i m' heq
  obtain ⟨-, rfl⟩ := fetch_eq_ok (Option.some.inj heq)
  exact .of_frames rfl rfl

theorem stores_stays {frames : Frames} (h : m.frames.Stores frames) :
    SameOuter m { m with frames } := by
  rcases h with ⟨name, v, hwrite⟩ | ⟨name, v, hdeclare⟩
  · exact .of_headers (Frames.headers_write hwrite) rfl
  · obtain ⟨f, g, outer, hframes, rfl⟩ := Frames.declare_eq_ok hdeclare
    exact ⟨by rw [hframes]; rfl, by rw [hframes]; rfl, rfl⟩

theorem callWithValues_stays (host : Host σ) (name : String) (args : List Value) (m : Machine σ) :
    Stays m (some (callWithValues host name args m)) := by
  unfold callWithValues
  split
  · exact stays_some (.of_frames rfl rfl)
  · exact stays_some (.of_frames rfl rfl)

/-- Expressions, from any state. -/
def staying (host : Host σ) (code : Array Instruction) : Comparison host host code where
  link m m' := m' = m
  rel m _ r _ := Stays m r
  allows _ := True
  moves _ := True
  position h := position_of_eq h
  frames h := frames_of_eq h
  andThen hr hk := hr.andThen fun a n ha hn => (hk a n n ha rfl).of_sameOuter hn
  done _ _ := stays_some (.refl _)
  fetch _ := fetch_stays code _
  store _ h := stays_some (stores_stays h)
  move _ _ _ := stays_some (.of_frames rfl rfl)
  select _ := ⟨trivial, trivial⟩
  resolve _ _ := stays_some (.of_frames rfl rfl)
  crowded _ _ _ _ _ h := absurd h (by simp)
  call _ _ args := callWithValues_stays host _ args _

theorem jump_stays (host : Host σ) (target : Nat) (m : Machine σ) :
    Stays m (some (jump code.size target m)) :=
  (staying host code).jump rfl trivial

theorem evalFetched_stays (hev : ∀ n, Stays n (ev n)) (i : Instruction) (m : Machine σ) :
    Stays m (evalFetched host code ev i m) := by
  have hrelates : (staying host code).Relates ev ev := fun n _ _ => hev n
  exact Comparison.evalFetched hrelates (i := i) trivial rfl

theorem eval_stays (fuel : Nat) (m : Machine σ) : Stays m (eval host code fuel m) :=
  Comparison.eval (C := staying host code) (fun _ _ => trivial)
    (fun _ _ _ _ heq => absurd heq (by simp))
    fuel rfl

/-! ### Blocks -/

/-- Closing a block: the frames around it are left with their names and marks; the frame of an
outermost block is kept. -/
theorem SameOuter.leave {slots : List Slot} (h : SameOuter (enter slots m) m') :
    (leave m').frames.map Frame.header = m.frames.map Frame.header ∧
      (m.frames ≠ [] → (leave m').finished = m.finished) ∧
      (m.frames = [] → ∃ f, m'.frames = [f] ∧ (leave m').frames = [] ∧
        (leave m').finished = some f) := by
  obtain ⟨hcount, houter, hfinished⟩ := h
  simp only [enter, List.length_cons, List.tail_cons] at hcount houter hfinished
  rcases hframes : m'.frames with _ | ⟨f, _ | ⟨g, outer⟩⟩
  · rw [hframes] at hcount
    cases hcount
  · have hnil : m.frames = [] := by
      rw [hframes] at hcount
      simpa using hcount.symm
    simp [Machine.leave, hframes, hnil]
  · have hne : m.frames ≠ [] := by
      rintro hnil
      rw [hframes, hnil] at hcount
      cases hcount
    rw [hframes] at houter
    simp [Machine.leave, hframes, hne, hfinished, ← houter]

/-! ### Statements -/

variable {st : Machine σ → Option (Result σ Unit)} {run : Nat → Machine σ → Option (Result σ Unit)}

theorem runUntil_stays (hst : ∀ n, n.frames ≠ [] → Stays n (st n)) (stop rounds : Nat)
    (hm : m.frames ≠ []) : Stays m (runUntil st stop rounds m) := by
  induction rounds generalizing m with
  | zero => exact fun _ _ heq => absurd heq (by simp [runUntil])
  | succ rounds ih =>
    rw [runUntil_succ]
    split
    · exact (hst m hm).andThen fun _ n _ hn => (ih (hn.frames_ne_nil hm)).of_sameOuter hn
    · exact stays_some (.refl m)

/-- A statement that is no block keeps the open blocks, and so does one in a block. -/
theorem perform_stays (hev : ∀ n, Stays n (ev n))
    (hrun : ∀ stop n, n.frames ≠ [] → Stays n (run stop n)) {i : Instruction}
    (hi : m.frames ≠ [] ∨ ∀ count slots, i ≠ .block count slots) :
    Stays m (perform host code ev run i m) := by
  cases i with
  | block count slots =>
    have hm : m.frames ≠ [] := hi.resolve_right fun h => h count slots rfl
    simp only [perform]
    split
    · exact stays_error _
    · intro _ n heq
      rcases andThen_eq_some.1 heq with ⟨e, n', -, hfail⟩ | ⟨_, n', hok, hnext⟩
      · exact absurd (congrArg Prod.fst hfail) (by simp)
      · obtain rfl : leave n' = n := by simpa using hnext
        -- the frame of the block is gone again
        obtain ⟨hheaders, hfinished, -⟩ :=
          (hrun _ (enter slots m) (List.cons_ne_nil _ _) _ _ hok).leave
        exact .of_headers hheaders (hfinished hm)
  | jumpIfFalse target =>
    refine (hev m).andThen fun v n _ hn => ?_
    split
    · exact stays_some hn
    · exact (jump_stays host target n).of_sameOuter hn
  | jump target => exact jump_stays host target m
  | _ =>
    rw [perform_of_hasValue rfl]
    exact (evalFetched_stays hev _ m).andThen fun v n _ hn =>
      stays_some (hn.trans (.of_frames rfl rfl))

/-- The next instruction opens a block. -/
def AtBlock (code : Array Instruction) (m : Machine σ) : Prop :=
  ∃ count slots, code[m.position]? = some (.block count slots)

/-- A statement in a block keeps the open blocks, and so does an outermost one that is no block. -/
theorem step_stays (fuel : Nat) (hm : m.frames ≠ [] ∨ ¬AtBlock code m) :
    Stays m (step host code fuel m) := by
  induction fuel generalizing m with
  | zero => exact fun _ _ heq => absurd heq (by simp [step])
  | succ fuel ih =>
    rw [step_succ]
    rcases hfetch : fetch code m with ⟨e | i, n⟩
    · exact stays_error e
    · obtain ⟨hi, hn⟩ := fetch_eq_ok hfetch
      have hsame : SameOuter m n := fetch_stays code m i n (congrArg some hfetch)
      rw [andThen_ok]
      refine Stays.of_sameOuter hsame (perform_stays (eval_stays fuel) ?_ ?_)
      · exact fun stop n hn => runUntil_stays (fun n hn => ih (.inl hn)) stop fuel hn
      · refine hm.imp hsame.frames_ne_nil ?_
        rintro hno count slots rfl
        exact hno ⟨count, slots, hi⟩

/-- The statements of a block begin after its header, with a new frame. -/
def opened (slots : List Slot) (m : Machine σ) : Machine σ :=
  enter slots { m with position := m.position + 1, limit := m.limit.later }

/-- A block that succeeds: its statements run to their end in a frame of their own, and the names
and marks of all other frames are kept. -/
theorem step_block {count fuel : Nat} {slots : List Slot}
    (hi : code[m.position]? = some (.block count slots))
    (h : step host code fuel m = some (.ok (), m')) :
    ∃ inner ending, fuel = inner + 1 ∧
      runUntil (step host code inner) (Code.advance (m.position + 1) count) inner (opened slots m) =
        some (.ok (), ending) ∧
      SameOuter (opened slots m) ending ∧ m' = leave ending := by
  cases fuel with
  | zero => simp [step] at h
  | succ inner =>
    rw [step_succ] at h
    rcases andThen_eq_some.1 h with ⟨e, n, -, hfail⟩ | ⟨i, n, hfetch, hperform⟩
    · exact absurd (congrArg Prod.fst hfail) (by simp)
    · obtain ⟨hi', rfl⟩ := fetch_eq_ok (Option.some.inj hfetch)
      obtain rfl : i = .block count slots := Option.some.inj (hi'.symm.trans hi)
      simp only [perform] at hperform
      split at hperform
      · cases hperform
      · rcases andThen_eq_some.1 hperform with ⟨e, n, -, hfail⟩ | ⟨_, ending, hrun, hleave⟩
        · exact absurd (congrArg Prod.fst hfail) (by simp)
        · refine ⟨inner, ending, rfl, hrun, ?_, by simpa using hleave.symm⟩
          have hframes : (opened slots m).frames ≠ [] := List.cons_ne_nil _ _
          exact runUntil_stays (fun n hn => step_stays inner (.inl hn)) _ inner hframes _ _ hrun

theorem step_frames {fuel : Nat} (h : step host code fuel m = some (.ok (), m')) :
    m'.frames.length = m.frames.length ∧
      m'.frames.tail.map Frame.header = m.frames.tail.map Frame.header ∧
      (AtBlock code m → m'.frames.map Frame.header = m.frames.map Frame.header) := by
  by_cases hblock : AtBlock code m
  · obtain ⟨count, slots, hi⟩ := hblock
    obtain ⟨inner, ending, -, -, hsame, rfl⟩ := step_block hi h
    have hheaders : (leave ending).frames.map Frame.header = m.frames.map Frame.header :=
      (SameOuter.leave hsame).1
    refine ⟨by simpa using congrArg List.length hheaders, ?_, fun _ => hheaders⟩
    rw [List.map_tail, List.map_tail, hheaders]
  · have hsame := step_stays fuel (.inr hblock) _ _ h
    exact ⟨hsame.count, hsame.outer, fun h => absurd h hblock⟩

/-! ### Runs -/

/-- Outermost statements that succeed one after the other, each from a state with a property. -/
inductive Steps (host : Host σ) (code : Array Instruction) (fuel : Nat) (P : Machine σ → Prop) :
    Machine σ → Machine σ → Prop
  | refl (m : Machine σ) : Steps host code fuel P m m
  | head {m n m' : Machine σ} (inside : m.position < code.size) (start : P m)
      (next : step host code fuel m = some (.ok (), n)) (rest : Steps host code fuel P n m') :
      Steps host code fuel P m m'

/-- A block was run as an outermost statement between two states, and no other one after it; at its
end it had the given frame. -/
inductive LastBlock (host : Host σ) (code : Array Instruction) (fuel : Nat) (m m' : Machine σ)
    (f : Frame) : Prop
  | intro {a ending : Machine σ} {count inner : Nat} {slots : List Slot}
      (before : Steps host code fuel (fun _ => True) m a)
      (header : code[a.position]? = some (.block count slots))
      (body : runUntil (step host code inner)
        (Code.advance (a.position + 1) count) inner (opened slots a) =
        some (.ok (), ending))
      (frame : ending.frames = [f])
      (close : step host code fuel a = some (.ok (), leave ending))
      (after : Steps host code fuel (fun n => ¬AtBlock code n) (leave ending) m')

variable {fuel : Nat} {P : Machine σ → Prop}

theorem steps_of_runUntil {rounds : Nat}
    (h : runUntil (step host code fuel) code.size rounds m = some (.ok (), m')) :
    Steps host code fuel (fun _ => True) m m' := by
  induction rounds generalizing m with
  | zero => simp [runUntil] at h
  | succ rounds ih =>
    rw [runUntil_succ] at h
    split at h
    · rename_i hlt
      rcases andThen_eq_some.1 h with ⟨e, n, -, hfail⟩ | ⟨_, n, hok, hnext⟩
      · exact absurd (congrArg Prod.fst hfail) (by simp)
      · exact .head hlt trivial hok (ih hnext)
    · obtain rfl : m = m' := by simpa using h
      exact .refl m

theorem frames_eq_nil_of_step (h : step host code fuel m = some (.ok (), m')) (hm : m.frames = []) :
    m'.frames = [] := by
  refine List.eq_nil_of_length_eq_zero ?_
  rw [(step_frames h).1, hm, List.length_nil]

theorem Steps.frames_eq_nil (h : Steps host code fuel P m m') (hm : m.frames = []) :
    m'.frames = [] := by
  induction h with
  | refl m => exact hm
  | head _ _ next _ ih => exact ih (frames_eq_nil_of_step next hm)

/-- Only blocks change the frame that is kept. -/
theorem Steps.finished_eq (h : Steps host code fuel (fun n => ¬AtBlock code n) m m') :
    m'.finished = m.finished := by
  induction h with
  | refl m => rfl
  | head _ start next _ ih => rw [ih, (step_stays fuel (.inr start) _ _ next).finished]

/-- Statements among which there is no block, or there is a last one. -/
theorem Steps.lastBlock_or (h : Steps host code fuel (fun _ => True) m m') (hm : m.frames = []) :
    Steps host code fuel (fun n => ¬AtBlock code n) m m' ∨
    ∃ f, LastBlock host code fuel m m' f := by
  induction h with
  | refl m => exact .inl (.refl m)
  | @head m _ _ inside _ next _ ih =>
    rcases ih (frames_eq_nil_of_step next hm) with
      hrest | ⟨f, ⟨before, header, body, frame, close, after⟩⟩
    · by_cases hblock : AtBlock code m
      · obtain ⟨count, slots, hi⟩ := hblock
        obtain ⟨inner, ending, -, hrun, hsame, rfl⟩ := step_block hi next
        obtain ⟨f, hframe, -, -⟩ := (SameOuter.leave hsame).2.2 hm
        exact .inr ⟨f, .intro (.refl m) hi hrun hframe next hrest⟩
      · exact .inl (.head inside hblock next hrest)
    · exact .inr ⟨f, .intro (.head inside trivial next before) header body frame close after⟩

/-- The frame that is kept is that of the last block. -/
theorem LastBlock.finished_eq {f : Frame} (h : LastBlock host code fuel m m' f) :
    m'.finished = some f := by
  obtain ⟨-, -, -, frame, -, after⟩ := h
  rw [after.finished_eq, leave, frame]

/-- **The discipline of the frames, in every program.** A statement that succeeds leaves as many
frames as there were, and the names and marks of all but the innermost one; a block leaves those of
all frames.  A run that succeeds leaves no frame open.  Among its outermost statements there is no
block, and then no variable has a value after it; or there is a last block, and then the variables
are those of its frame, as it was when its statements had come to their end. -/
theorem frames_discipline (host : Host σ) (code : Array Instruction) (fuel : Nat) (m : Machine σ) :
    (∀ m', step host code fuel m = some (.ok (), m') →
      m'.frames.length = m.frames.length ∧
        m'.frames.tail.map Frame.header = m.frames.tail.map Frame.header ∧
        (AtBlock code m → m'.frames.map Frame.header = m.frames.map Frame.header)) ∧
    ∀ limit v m', runFuel host code limit fuel m = some (.ok v, m') →
      m'.frames = [] ∧
        (Steps host code fuel (fun n => ¬AtBlock code n) (m.reset.withLimit limit) m' ∧
            (∀ name, m'.valueOf? name = none) ∨
          ∃ f, LastBlock host code fuel (m.reset.withLimit limit) m' f) ∧
        ∀ f, LastBlock host code fuel (m.reset.withLimit limit) m' f →
          ∀ name, m'.valueOf? name = Frame.valueOf? f name := by
  refine ⟨fun m' h => step_frames h, ?_⟩
  intro limit v m' h
  rw [runFuel_eq_andThen] at h
  rcases andThen_eq_some.1 h with ⟨e, n, -, hfail⟩ | ⟨_, n, hrun, hend⟩
  · exact absurd (congrArg Prod.fst hfail) (by simp)
  · obtain ⟨-, rfl⟩ : some v = some n.lastValue ∧ n = m' := by simpa [eq_comm] using hend
    have hstart : (m.reset.withLimit limit).frames = [] := rfl
    have hsteps := steps_of_runUntil hrun
    have hframes := hsteps.frames_eq_nil hstart
    refine ⟨hframes, ?_, ?_⟩
    · rcases hsteps.lastBlock_or hstart with hnone | hlast
      · refine .inl ⟨hnone, fun name => ?_⟩
        rw [valueOf?_of_finished hframes, hnone.finished_eq]
        rfl
      · exact .inr hlast
    · intro f hlast name
      rw [valueOf?_of_finished hframes, hlast.finished_eq]
      rfl

/-- Two blocks that end in the middle of an assignment. -/
def overlapping : Array Instruction :=
  #[.block 5 [⟨"x", .int, .int 0, false⟩], .declare "x" true, .int 1,
    .block 2 [⟨"y", .int, .int 5, false⟩], .declare "y" false, .assign "x", .int 7]

/-- The state in which the inner block begins. -/
def betweenBlocks : Machine Unit :=
  { start () Console.empty with position := 3, frames := [[("x", ⟨.int 1, true⟩)]] }

/-- The inner block sets a variable of the outer one.  It leaves the outer frame with its names, and
the run ends with the variables of the outer block. -/
theorem frames_discipline_overlapping :
    (∃ m', step Host.plain overlapping 9 betweenBlocks = some (.ok (), m') ∧
      m'.frames = [[("x", ⟨.int 7, true⟩)]] ∧
      m'.frames.map Frame.header = betweenBlocks.frames.map Frame.header) ∧
    ∃ v m' f, runFuel Host.plain overlapping .none 9 (start () Console.empty) = some (.ok v, m') ∧
      m'.frames = [] ∧
      LastBlock Host.plain overlapping 9 ((start () Console.empty).reset.withLimit .none) m' f ∧
      Frame.valueOf? f "x" = some (.int 7) ∧ Frame.valueOf? f "y" = none := by
  constructor
  · have hstep : ∃ m', step Host.plain overlapping 9 betweenBlocks = some (.ok (), m') ∧
        m'.frames = [[("x", ⟨.int 7, true⟩)]] := ⟨_, rfl, rfl⟩
    obtain ⟨m', hstep, hframes⟩ := hstep
    obtain ⟨-, -, hheaders⟩ := (frames_discipline Host.plain overlapping 9 betweenBlocks).1 m' hstep
    exact ⟨m', hstep, hframes, hheaders ⟨2, _, rfl⟩⟩
  · have hrun : ∃ v m', runFuel Host.plain overlapping .none 9 (start () Console.empty) =
        some (.ok v, m') ∧ m'.valueOf? "x" = some (.int 7) ∧ m'.valueOf? "y" = none :=
      ⟨_, _, rfl, rfl, rfl⟩
    obtain ⟨v, m', hrun, hx, hy⟩ := hrun
    obtain ⟨hframes, hcases, hlast⟩ :=
      (frames_discipline Host.plain overlapping 9 (start () Console.empty)).2 _ _ _ hrun
    rcases hcases with ⟨-, hnone⟩ | ⟨f, hf⟩
    · exact absurd ((hnone "x").symm.trans hx) (by simp)
    · refine ⟨v, m', f, hrun, hframes, hf, ?_, ?_⟩
      · rw [← hlast f hf, hx]
      · rw [← hlast f hf, hy]

end Machine

end BindScript
