import CliMessaging.Library.Transition
import CliMessaging.Model.Client.Commands

/-! # What the user types

The keys that were typed determine the line under the cursor and the channel that the next
line is said on, whatever else the client does meanwhile. -/

namespace CliMessaging.Client

open Transition

variable {c c₀ c' : Client} {sendOk : Bool} {input : Input} {o : Outcome} {ps : List Pass}
  {line X : List UInt8}

/-! ## History -/

/-- The line after an input. -/
def Input.edit (s : StdinBuf) : Input → StdinBuf
  | .key cur => if cur = 10 then .empty else if cur = 127 then s.backspace else s.push cur
  | _ => s

/-- The line that an input ends, unless it is empty. -/
def Input.ended (s : StdinBuf) : Input → Option (List UInt8)
  | .key cur => if cur = 10 ∧ s.str ≠ [] then some s.str else none
  | _ => none

/-- The line under the cursor after some passes from an empty line, and the lines before. -/
def history (ps : List Pass) : StdinBuf × List (List UInt8) :=
  ps.foldl (fun h p => (p.input.edit h.1, h.2 ++ (p.input.ended h.1).toList)) (.empty, [])

def typedLines (ps : List Pass) : List (List UInt8) := (history ps).2

/-- The argument of a line that switches the channel. -/
def switchArg (line : List UInt8) : Option (List UInt8) :=
  if checkIfIsCommand line = some .switch then getArg line else none

/-- The current channel after a line. -/
def channelAfter (channel : Field channelMax) (line : List UInt8) : Field channelMax :=
  match switchArg line with
  | none => channel
  | some name => .ofText channelMax name

theorem history_snoc (ps : List Pass) (p : Pass) :
    history (ps ++ [p]) = (p.input.edit (history ps).1,
      (history ps).2 ++ (p.input.ended (history ps).1).toList) := by
  simp [history]

/-! ## One pass -/

theorem handleCmdArg_curChannel (request : Field channelMax → List UInt8) (c : Client)
    (sendOk : Bool) (line : List UInt8) :
    (handleCmdArg request c sendOk line).1.curChannel = c.curChannel := by
  unfold handleCmdArg
  cases getArg line <;> rfl

theorem handleChat_curChannel (h : (c.handleChat sendOk line).1 = some c') :
    c'.curChannel = channelAfter c.curChannel line := by
  unfold handleChat at h
  unfold channelAfter switchArg
  cases hcommand : checkIfIsCommand line with
  | none =>
      rw [hcommand] at h
      cases h
      rfl
  | some command =>
      rw [hcommand] at h
      cases command with
      | exit => cases h
      | switch =>
          cases h
          unfold handleCmdSwitch
          cases getArg line <;> rfl
      | say =>
          cases h
          rfl
      | list =>
          cases h
          rfl
      | _ =>
          cases h
          exact handleCmdArg_curChannel _ c sendOk line

theorem endLine_of_ne_nil (h : c.stdinbuf.str ≠ []) (sendOk : Bool) :
    c.endLine sendOk = ((c.handleChat sendOk c.stdinbuf.str).1.map clearLine,
      (c.handleChat sendOk c.stdinbuf.str).2) := by
  rw [endLine, if_neg h]

theorem react_end (c : Client) (sendOk : Bool) : c.react sendOk (.key 10) =
    .ok ⟨(c.endLine sendOk).1, (c.endLine sendOk).2, []⟩ := rfl

theorem keepAlive_kept (c : Client) (sendOk : Bool) :
    (c.keepAlive sendOk).1.stdinbuf = c.stdinbuf ∧
      (c.keepAlive sendOk).1.curChannel = c.curChannel := by
  unfold keepAlive
  cases c.activityLastMinute <;> exact ⟨rfl, rfl⟩

/-- What a pass makes of the line and of the current channel. -/
theorem react_edit (h : c.react sendOk input = .ok o) (hc' : o.client = some c') :
    c'.stdinbuf = input.edit c.stdinbuf ∧
      c'.curChannel = (input.ended c.stdinbuf).toList.foldl channelAfter c.curChannel := by
  cases input with
  | key cur =>
      by_cases hend : cur = 10
      · subst hend
        rw [react_end] at h
        obtain rfl := Except.ok.inj h
        change (c.endLine sendOk).1 = some c' at hc'
        by_cases hempty : c.stdinbuf.str = []
        · rw [endLine, if_pos hempty] at hc'
          cases hc'
          simp [Input.ended, hempty, Input.edit, clearLine]
        · rw [endLine_of_ne_nil hempty] at hc'
          obtain ⟨c₁, hc₁, rfl⟩ := Option.map_eq_some_iff.mp hc'
          have hchannel := handleChat_curChannel hc₁
          simpa [Input.ended, hempty, Input.edit, clearLine] using hchannel
      · rw [react, if_neg hend] at h
        simp only [Input.edit, Input.ended, hend, false_and, if_false]
        split at h
        · cases h
          cases hc'
          simp_all
        · cases h
          cases hc'
          simp_all
  | recv src data =>
      obtain ⟨printed, -, hok⟩ := bind_eq_ok.mp h
      cases hok
      cases hc'
      exact ⟨rfl, rfl⟩
  | tick =>
      cases h
      cases hc'
      exact keepAlive_kept c sendOk

/-- The line and the current channel are those of the keys that were typed. -/
theorem history_of_run (h₀ : c₀.stdinbuf = .empty) (hrun : Run Step (some c₀) ps (some c)) :
    c.stdinbuf = (history ps).1 ∧
      c.curChannel = (typedLines ps).foldl channelAfter c₀.curChannel := by
  have hstep : ∀ past s p t,
      (∀ c, s = some c → c.stdinbuf = (history past).1 ∧
        c.curChannel = (typedLines past).foldl channelAfter c₀.curChannel) →
      True → Step s p t →
      ∀ c, t = some c → c.stdinbuf = (history (past ++ [p])).1 ∧
        c.curChannel = (typedLines (past ++ [p])).foldl channelAfter c₀.curChannel := by
    intro past s p t hs _ ⟨c, hc, hreact⟩ c' hc'
    obtain ⟨hline, hchannel⟩ := hs c hc
    obtain ⟨hline', hchannel'⟩ := react_edit hreact hc'
    rw [typedLines, history_snoc, List.foldl_append, hline', hchannel', hline, hchannel]
    exact ⟨rfl, rfl⟩
  have hall := hrun.history hstep (fun _ _ => trivial) [] fun c hc => by
    cases hc
    exact ⟨h₀, rfl⟩
  exact hall c rfl

/-- The last switch counts. -/
theorem foldl_channelAfter {before after : List (List UInt8)} (channel : Field channelMax)
    (hline : switchArg line = some X) (hlast : ∀ l ∈ after, switchArg l = none) :
    (before ++ line :: after).foldl channelAfter channel = .ofText channelMax X := by
  rw [List.foldl_append, List.foldl_cons]
  generalize before.foldl channelAfter channel = earlier
  have hset : channelAfter earlier line = .ofText channelMax X := by rw [channelAfter, hline]
  rw [hset]
  induction after with
  | nil => rfl
  | cons l after ih =>
      have hl : channelAfter (.ofText channelMax X) l = .ofText channelMax X := by
        rw [channelAfter, hlast l (by simp)]
      rw [List.foldl_cons, hl]
      exact ih fun l hl => hlast l (by simp [hl])

/-! ## Ending a line -/

theorem StdinBuf.str_of_typed {s : StdinBuf} (h : s.typed = line) (hnul : 0 ∉ line) :
    s.str = line := by
  rw [StdinBuf.str, h, List.takeWhile_eq_self_iff]
  intro b hb
  have hne : b ≠ 0 := by
    rintro rfl
    exact hnul hb
  simpa using hne

/-- The start of the array is copied like a text. -/
theorem StdinBuf.first_eq_copyText (s : StdinBuf) {n : ℕ} (h : n ≤ 256) :
    s.first n h = Field.copyText n s.typed := by
  apply Field.ext
  rw [Field.bytes_copyText]
  change (s.typed ++ zeros (256 - s.typed.length)).take n = _
  rw [List.take_append, zeros, List.take_replicate, zeros, Nat.min_eq_left (by omega)]

theorem react_line (h : c.stdinbuf.str = line) (hne : line ≠ []) (sendOk : Bool) :
    c.react sendOk (.key 10) =
      .ok ⟨(c.handleChat sendOk line).1.map clearLine, (c.handleChat sendOk line).2, []⟩ := by
  subst h
  rw [react_end, endLine_of_ne_nil hne]

theorem handleChat_say (hslash : line.head? ≠ some 47) (c : Client) (sendOk : Bool) :
    c.handleChat sendOk line =
      (some (c.handleCmdSay sendOk).1, (c.handleCmdSay sendOk).2) := by
  rw [handleChat, checkIfIsCommand, if_pos hslash]

theorem handleChat_join (c : Client) (sendOk : Bool) (X : List UInt8) :
    c.handleChat sendOk (ascii "/join " ++ X) =
      (some (c.sendMsg sendOk (requestJoin (.ofText channelMax X))).1,
        (c.sendMsg sendOk (requestJoin (.ofText channelMax X))).2) := rfl

theorem handleChat_leave (c : Client) (sendOk : Bool) (X : List UInt8) :
    c.handleChat sendOk (ascii "/leave " ++ X) =
      (some (c.sendMsg sendOk (requestLeave (.ofText channelMax X))).1,
        (c.sendMsg sendOk (requestLeave (.ofText channelMax X))).2) := rfl

theorem handleChat_who (c : Client) (sendOk : Bool) (X : List UInt8) :
    c.handleChat sendOk (ascii "/who " ++ X) =
      (some (c.sendMsg sendOk (requestWho (.ofText channelMax X))).1,
        (c.sendMsg sendOk (requestWho (.ofText channelMax X))).2) := rfl

theorem switchArg_switch (X : List UInt8) : switchArg (ascii "/switch " ++ X) = some X := rfl

theorem handleChat_switch (c : Client) (sendOk : Bool) (X : List UInt8) :
    c.handleChat sendOk (ascii "/switch " ++ X) =
      (some { c with curChannel := .ofText channelMax X }, []) := rfl

/-! ## Typing a line -/

def typing (cur : UInt8) (sent : List Datagram) : Pass := ⟨.key cur, true, sent, []⟩

/-- The passes on the bytes of a line, without its end. -/
def typingLine (line : List UInt8) : List Pass := line.map fun b => typing b []

/-- A byte that is not a key of the line editor. -/
def IsText (b : UInt8) : Prop := b ≠ 0 ∧ b ≠ 10 ∧ b ≠ 127

instance (b : UInt8) : Decidable (IsText b) := inferInstanceAs (Decidable (_ ∧ _ ∧ _))

instance (line : List UInt8) : Decidable (∀ b ∈ line, IsText b) := List.decidableBAll _ line

theorem react_text {b : UInt8} (hb : IsText b) (c : Client) :
    c.react true (.key b) = .ok ⟨some { c with stdinbuf := c.stdinbuf.push b }, [], []⟩ := by
  rw [react, if_neg hb.2.1, if_neg hb.2.2]

theorem typed_push {s : StdinBuf} (h : s.typed.length < 255) (b : UInt8) :
    (s.push b).typed = s.typed ++ [b] := by
  rw [StdinBuf.push, dif_pos h]

/-- A line that fits can be typed. -/
theorem run_typingLine (hline : ∀ b ∈ line, IsText b)
    (hroom : c.stdinbuf.typed.length + line.length < 256) :
    ∃ c', Run Step (some c) (typingLine line) (some c') ∧
      c'.stdinbuf.typed = c.stdinbuf.typed ++ line := by
  induction line generalizing c with
  | nil => exact ⟨c, .nil _, by simp⟩
  | cons b line ih =>
      rw [List.length_cons] at hroom
      have hpush := typed_push (s := c.stdinbuf) (by omega) b
      have hfirst : Step (some c) (typing b []) (some { c with stdinbuf := c.stdinbuf.push b }) :=
        ⟨c, rfl, react_text (hline b (by simp)) c⟩
      have hroom' : (c.stdinbuf.push b).typed.length + line.length < 256 := by
        rw [hpush, List.length_append, List.length_singleton]
        omega
      obtain ⟨c', hrun, htyped⟩ := ih (c := { c with stdinbuf := c.stdinbuf.push b })
        (fun x hx => hline x (by simp [hx])) hroom'
      exact ⟨c', .cons hfirst hrun, by rw [htyped, hpush, List.append_assoc]; rfl⟩

theorem typedLines_typingLine (hline : ∀ b ∈ line, IsText b) (ps : List Pass) :
    typedLines (ps ++ typingLine line) = typedLines ps := by
  induction line using List.reverseRecOn with
  | nil => rw [typingLine, List.map_nil, List.append_nil]
  | append_singleton line b ih =>
      have hnone : (typing b []).input.ended (history (ps ++ typingLine line)).1 = none :=
        if_neg fun h => (hline b (by simp)).2.1 h.1
      have hsnoc : typingLine (line ++ [b]) = typingLine line ++ [typing b []] := by
        simp [typingLine]
      rw [hsnoc, ← List.append_assoc, typedLines, history_snoc, hnone, Option.toList_none,
        List.append_nil]
      exact ih fun x hx => hline x (by simp [hx])

/-- The end of a line puts it among the lines before. -/
theorem typedLines_end {p : Pass} (h₀ : c₀.stdinbuf = .empty)
    (hrun : Run Step (some c₀) ps (some c)) (htyped : c.stdinbuf.typed = line)
    (hnul : 0 ∉ line) (hne : line ≠ []) (hinput : p.input = .key 10) :
    typedLines (ps ++ [p]) = typedLines ps ++ [line] := by
  have hstr : (history ps).1.str = line := by
    rw [← (history_of_run h₀ hrun).1]
    exact StdinBuf.str_of_typed htyped hnul
  rw [typedLines, history_snoc, hinput, Input.ended, hstr, if_pos ⟨rfl, hne⟩]
  rfl

/-- The line is empty after its end. -/
theorem typed_end {sendOk : Bool} (h : c.react sendOk (.key 10) = .ok o)
    (hc' : o.client = some c') : c'.stdinbuf.typed = [] := by
  rw [(react_edit h hc').1]
  rfl

end CliMessaging.Client
