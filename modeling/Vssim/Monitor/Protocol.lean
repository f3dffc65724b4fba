import Vssim.Config.File
import Vssim.Library.Framing

/-!
# The messages to the monitor

With `MONITOR_ON` the simulator reports to a separate process, the monitor: `WRITE_LOG`
(`ssd_log_manager.c`) sends a message and a newline over a socket, and `Form1::onReceive`
(`form1.ui.h`) is called whenever something has arrived, takes the lines apart that are complete,
and counts.

A message is written with `%d` and read with `%u` or `%lld`. What is sent is what is counted
(`handle_text`), whatever has arrived of it and in whatever packets (`receive_messages`).
-/

namespace Vssim

open Scan Framing

/-! ### Messages -/

/-- The messages of a build with the page-mapping FTL. Floating-point numbers are texts. -/
inductive Message
  /-- `_FTL_READ`, with the `length` of the request. -/
  | readPage (length : ℕ)
  /-- `_FTL_WRITE`, with the `length` of the request. -/
  | writePage (length : ℕ)
  /-- `_FTL_WRITE`, with `write_page_nb`. -/
  | wbCorrect (writePageNb : ℤ)
  /-- `GARBAGE_COLLECTION`. -/
  | gc
  /-- `GARBAGE_COLLECTION`, with `copy_page_nb`. -/
  | wbAmp (copyPageNb : ℤ)
  /-- `SEND_TO_PERF_CHECKER` for an erase. -/
  | erase
  /-- `SEND_TO_PERF_CHECKER` for the latency of a read. -/
  | readBw (bandwidth : List Char)
  /-- `SEND_TO_PERF_CHECKER` for the latency of a write. -/
  | writeBw (bandwidth : List Char)
  /-- `SEND_TO_PERF_CHECKER` for the latency of a write. -/
  | util (ssdUtil : List Char)

namespace Message

/-- The text of a message, as its `sprintf` writes it. `length` is unsigned and printed with
`%d`. -/
def text : Message → List Char
  | readPage length => "READ PAGE ".toList ++ numeral (toI32 length) ++ [' ']
  | writePage length => "WRITE PAGE ".toList ++ numeral (toI32 length) ++ [' ']
  | wbCorrect writePageNb => "WB CORRECT ".toList ++ numeral writePageNb
  | gc => "GC ".toList
  | wbAmp copyPageNb => "WB AMP ".toList ++ numeral copyPageNb
  | erase => "ERASE ".toList ++ numeral 1
  | readBw bandwidth => "READ BW ".toList ++ bandwidth ++ [' ']
  | writeBw bandwidth => "WRITE BW ".toList ++ bandwidth ++ [' ']
  | util ssdUtil => "UTIL ".toList ++ ssdUtil ++ [' ']

/-- The numbers fit into their variables, the texts are single words. -/
def Ok : Message → Prop
  | readPage length | writePage length => length < 2 ^ 32
  | wbCorrect n | wbAmp n => -2 ^ 31 ≤ n ∧ n < 2 ^ 31
  | readBw w | writeBw w | util w => w ≠ [] ∧ ∀ c ∈ w, isSpace c = false
  | gc | erase => True

end Message

/-- `WRITE_LOG`: what has been sent over the socket, if the server has been created. Both calls of
`send` deliver what they are given. -/
def writeLog (serverCreate : Bool) (sent szLog : List Char) : List Char :=
  if serverCreate then sent ++ szLog ++ ['\n'] else sent

/-! ### The monitor -/

/-- The variables of `Form1` that `onReceive` updates. -/
structure Monitor where
  writeSecCount : ℤ
  readSecCount : ℤ
  writeCount : ℤ
  readCount : ℤ
  gcNb : ℤ
  writtenCorrectCount : ℤ
  writeAmpCount : ℤ
  trimCount : ℤ
  trimEffect : ℤ
  accessTimeRegMon : ℤ → ℤ
  accessTypeRegMon : ℤ → ℤ

namespace Monitor

/-- The counters that `init_var` sets to zero. -/
def zero : Monitor := ⟨0, 0, 0, 0, 0, 0, 0, 0, 0, fun _ => 0, fun _ => 0⟩

/-- `sscanf` of one number; there is no value if there is no number. -/
def scan (convert : ℤ → ℤ) (cs : List Char) : Option ℤ := (number cs).1.map convert

variable (m : Monitor)

/-- `POWER`. The arrays have `regNb` entries. -/
def power (regNb : ℤ) : List (List Char) → Option Monitor
  | reg :: time :: type :: _ => do
    let regst ← scan scanInt reg
    if 0 ≤ regst ∧ regst < regNb then
      let time := (scan scanLong time).getD (m.accessTimeRegMon regst)
      let type := (scan scanInt type).getD (m.accessTypeRegMon regst)
      some
        { m with
          accessTimeRegMon := Function.update m.accessTimeRegMon regst time
          accessTypeRegMon := Function.update m.accessTypeRegMon regst type }
    else none
  | _ => none

/-- `WRITE`. -/
def write : List (List Char) → Option Monitor
  | kind :: args =>
    if kind = "PAGE".toList then do
      let length ← scan scanUnsigned (← args.head?)
      some
        { m with
          writeSecCount := toU32 (m.writeSecCount + length)
          writeCount := toI32 (m.writeCount + 1) }
    else if kind = "BW".toList then args.head?.map fun _ => m
    else some m
  | [] => none

/-- `READ`. -/
def read : List (List Char) → Option Monitor
  | kind :: args =>
    if kind = "PAGE".toList then do
      let length ← scan scanUnsigned (← args.head?)
      some
        { m with
          readSecCount := toU32 (m.readSecCount + length)
          readCount := toI32 (m.readCount + 1) }
    else if kind = "BW".toList then args.head?.map fun _ => m
    else some m
  | [] => none

/-- `WB`. The number is read first; without one `wb` stays 0. -/
def wb : List (List Char) → Option Monitor
  | kind :: number :: _ =>
    let wb := (scan scanLong number).getD 0
    if kind = "CORRECT".toList then
      some { m with writtenCorrectCount := toI64 (m.writtenCorrectCount + wb) }
    else some { m with writeAmpCount := toI64 (m.writeAmpCount + wb) }
  | _ => none

/-- `TRIM`. -/
def trim : List (List Char) → Option Monitor
  | kind :: args =>
    if kind = "INSERT".toList then some { m with trimCount := toI32 (m.trimCount + 1) }
    else args.head?.map fun effect =>
      { m with trimEffect := toI32 (m.trimEffect + (scan scanInt effect).getD 0) }
  | [] => none

/-- A command of `Form1::onReceive` with its arguments. -/
def command (regNb : ℤ) (cmd : List Char) (args : List (List Char)) : Option Monitor :=
  if cmd = "POWER".toList then m.power regNb args
  else if cmd = "WRITE".toList then m.write args
  else if cmd = "READ".toList then m.read args
  else if cmd = "READF".toList then args.head?.map fun _ => m
  else if cmd = "GC".toList then some { m with gcNb := toI64 (m.gcNb + 1) }
  else if cmd = "WB".toList then m.wb args
  else if cmd = "TRIM".toList then m.trim args
  else if cmd = "UTIL".toList then args.head?.map fun _ => m
  else some m

/-- The body of the loop of `Form1::onReceive`, for a line. There is no result where the code reads
an argument that is not there, a variable that has not been set or a register that does not
exist. -/
def handle (regNb : ℤ) (szCmd : List Char) : Option Monitor :=
  match fields (fun c => c == ' ') szCmd with
  | [] => none
  | cmd :: args => m.command regNb cmd args

/-- `Form1::onReceive`: `canReadLine` and `readLine` until there is no complete line. The socket
keeps the rest. -/
def onReceive (regNb : ℤ) (x : Option Monitor × List Char) (packet : List Char) :
    Option Monitor × List Char :=
  receive (fun c => c == '\n') (fun m line => m.bind fun m => m.handle regNb line) x packet

end Monitor

/-! ### What a message does -/

/-- What a message counts for. -/
def Message.count (m : Monitor) : Message → Monitor
  | readPage length =>
    { m with
      readSecCount := toU32 (m.readSecCount + length)
      readCount := toI32 (m.readCount + 1) }
  | writePage length =>
    { m with
      writeSecCount := toU32 (m.writeSecCount + length)
      writeCount := toI32 (m.writeCount + 1) }
  | wbCorrect n => { m with writtenCorrectCount := toI64 (m.writtenCorrectCount + n) }
  | gc => { m with gcNb := toI64 (m.gcNb + 1) }
  | wbAmp n => { m with writeAmpCount := toI64 (m.writeAmpCount + n) }
  | erase | readBw _ | writeBw _ | util _ => m

/-- A length survives `%d` and `%u`. -/
private theorem scanUnsigned_toI32 {n : ℕ} (h : n < 2 ^ 32) : scanUnsigned (toI32 n) = n := by
  have hge : -2 ^ 31 ≤ toI32 n := by
    rw [toI32]
    exact Int.le_bmod (by decide)
  have hlt : toI32 n < 2 ^ 31 := by
    rw [toI32]
    exact Int.bmod_lt (by decide)
  rw [scanUnsigned, if_pos (by omega), toU32, toI32, Int.toNat_of_nonneg (by omega)]
  exact (Int.bmod_emod (x := n) (m := 2 ^ 32)).trans (Int.emod_eq_of_lt (by omega) (by omega))

private theorem ne_of_isSpace {c : Char} (h : isSpace c = false) :
    (c == ' ') = false ∧ (c == '\n') = false := by
  simp only [isSpace, Bool.or_eq_false_iff] at h
  exact ⟨h.1.1.1.1.1, h.1.1.1.2⟩

/-- A number, also in front of the newline. -/
private theorem scan_numeral (convert : ℤ → ℤ) (z : ℤ) :
    Monitor.scan convert (numeral z) = some (convert z) ∧
      Monitor.scan convert (numeral z ++ ['\n']) = some (convert z) := by
  have hend : number ([] ++ (numeral z ++ [])) = (some z, []) :=
    number_append z (by simp) (by simp)
  have hline : number ([] ++ (numeral z ++ ['\n'])) = (some z, ['\n']) :=
    number_append z (by simp) (by simp)
  simp only [List.nil_append, List.append_nil] at hend hline
  rw [Monitor.scan, Monitor.scan, hend, hline]
  exact ⟨rfl, rfl⟩

private theorem scanLong_numeral {n : ℤ} (h : -2 ^ 31 ≤ n ∧ n < 2 ^ 31) :
    Monitor.scan scanLong (numeral n ++ ['\n']) = some n := by
  rw [(scan_numeral scanLong n).2, scanLong_eq (by omega) (by omega)]

namespace Message

/-- The parts of a message: those that a blank follows, and the last one. -/
def parts : Message → List (List Char) × List Char
  | readPage length => (["READ".toList, "PAGE".toList, numeral (toI32 length)], [])
  | writePage length => (["WRITE".toList, "PAGE".toList, numeral (toI32 length)], [])
  | wbCorrect n => (["WB".toList, "CORRECT".toList], numeral n)
  | gc => (["GC".toList], [])
  | wbAmp n => (["WB".toList, "AMP".toList], numeral n)
  | erase => (["ERASE".toList], numeral 1)
  | readBw w => (["READ".toList, "BW".toList, w], [])
  | writeBw w => (["WRITE".toList, "BW".toList, w], [])
  | util w => (["UTIL".toList, w], [])

/-- A format whose last conversion is followed by a blank. -/
private theorem format_word {format : List Char} (ws : List (List Char))
    (h : format = ws.flatMap fun w => w ++ [' ']) (w : List Char) :
    format ++ w ++ [' '] = (ws ++ [w]).flatMap (fun w => w ++ [' ']) ++ [] := by
  rw [h, List.flatMap_append, List.flatMap_singleton, List.append_nil, List.append_assoc]

/-- A format that ends with its last conversion. -/
private theorem format_last {format : List Char} (ws : List (List Char))
    (h : format = ws.flatMap fun w => w ++ [' ']) (w : List Char) :
    format ++ w = ws.flatMap (fun w => w ++ [' ']) ++ w := by
  rw [h]

private theorem text_eq (msg : Message) :
    msg.text = msg.parts.1.flatMap (fun w => w ++ [' ']) ++ msg.parts.2 := by
  cases msg with
  | readPage length =>
    exact format_word ["READ".toList, "PAGE".toList] (by decide +kernel) _
  | writePage length =>
    exact format_word ["WRITE".toList, "PAGE".toList] (by decide +kernel) _
  | wbCorrect n => exact format_last ["WB".toList, "CORRECT".toList] (by decide +kernel) _
  | gc => exact (List.append_nil _).symm.trans (format_last ["GC".toList] (by decide +kernel) [])
  | wbAmp n => exact format_last ["WB".toList, "AMP".toList] (by decide +kernel) _
  | erase => exact format_last ["ERASE".toList] (by decide +kernel) _
  | readBw w => exact format_word ["READ".toList, "BW".toList] (by decide +kernel) _
  | writeBw w => exact format_word ["WRITE".toList, "BW".toList] (by decide +kernel) _
  | util w => exact format_word ["UTIL".toList] (by decide +kernel) _

/-- A text is a word. -/
theorem isWord {w : List Char} (h : (!w.isEmpty && w.all fun c => !isSpace c) = true) :
    w ≠ [] ∧ ∀ c ∈ w, isSpace c = false := by
  simpa using h

/-- No part holds white space. -/
private theorem Ok.parts {msg : Message} (h : msg.Ok) :
    (∀ w ∈ msg.parts.1, w ≠ [] ∧ ∀ c ∈ w, isSpace c = false) ∧
      ∀ c ∈ msg.parts.2, isSpace c = false := by
  have hnumeral : ∀ z : ℤ, numeral z ≠ [] ∧ ∀ c ∈ numeral z, isSpace c = false :=
    fun z => ⟨numeral_ne_nil z, fun _ => isSpace_of_mem_numeral⟩
  cases msg with
  | readPage length | writePage length =>
    simp only [Message.parts, List.forall_mem_cons]
    exact ⟨⟨isWord rfl, isWord rfl, hnumeral _, by simp⟩, by simp⟩
  | wbCorrect n | wbAmp n =>
    simp only [Message.parts, List.forall_mem_cons]
    exact ⟨⟨isWord rfl, isWord rfl, by simp⟩, (hnumeral n).2⟩
  | gc =>
    simp only [Message.parts, List.forall_mem_cons]
    exact ⟨⟨isWord rfl, by simp⟩, by simp⟩
  | erase =>
    simp only [Message.parts, List.forall_mem_cons]
    exact ⟨⟨isWord rfl, by simp⟩, (hnumeral 1).2⟩
  | readBw w | writeBw w =>
    simp only [Message.parts, List.forall_mem_cons]
    exact ⟨⟨isWord rfl, isWord rfl, h, by simp⟩, by simp⟩
  | util w =>
    simp only [Message.parts, List.forall_mem_cons]
    exact ⟨⟨isWord rfl, h, by simp⟩, by simp⟩

/-- The command and the arguments of a line; the last of them ends with the newline. -/
private theorem Ok.fields {msg : Message} (h : msg.Ok) :
    Scan.fields (fun c => c == ' ') (msg.text ++ ['\n']) =
      msg.parts.1 ++ [msg.parts.2 ++ ['\n']] := by
  obtain ⟨hwords, hlast⟩ := h.parts
  have hfields : ∀ w ∈ msg.parts.1, w ≠ [] ∧ ∀ c ∈ w, (c == ' ') = false :=
    fun w hw => ⟨(hwords w hw).1, fun c hc => (ne_of_isSpace ((hwords w hw).2 c hc)).1⟩
  have hend : ∀ c ∈ msg.parts.2 ++ ['\n'], (c == ' ') = false := by
    intro c hc
    rcases List.mem_append.mp hc with hc | hc
    · exact (ne_of_isSpace (hlast c hc)).1
    · rw [List.mem_singleton.mp hc]
      rfl
  have hsingle := fields_append (p := fun c => c == ' ') (List.append_ne_nil_of_right_ne_nil _
    (List.cons_ne_nil '\n' [])) hend (show Ends _ [] by simp [Ends])
  rw [List.append_nil, fields_nil] at hsingle
  rw [text_eq, List.append_assoc, fields_flatMap hfields rfl, hsingle]

/-- No message holds a newline. -/
private theorem Ok.newline {msg : Message} (h : msg.Ok) : ∀ c ∈ msg.text, (c == '\n') = false := by
  obtain ⟨hwords, hlast⟩ := h.parts
  intro c hc
  rw [text_eq] at hc
  rcases List.mem_append.mp hc with hc | hc
  · obtain ⟨w, hw, hc⟩ := List.mem_flatMap.mp hc
    rcases List.mem_append.mp hc with hc | hc
    · exact (ne_of_isSpace ((hwords w hw).2 c hc)).2
    · rw [List.mem_singleton.mp hc]
      rfl
  · exact (ne_of_isSpace (hlast c hc)).2

end Message

namespace Monitor

variable (m : Monitor) (regNb : ℤ) (args : List (List Char)) (w : List Char)

private theorem command_write : m.command regNb "WRITE".toList args = m.write args := by
  rw [command, if_neg (by decide), if_pos rfl]

private theorem command_read : m.command regNb "READ".toList args = m.read args := by
  rw [command, if_neg (by decide), if_neg (by decide), if_pos rfl]

private theorem command_gc : m.command regNb "GC".toList args =
    some { m with gcNb := toI64 (m.gcNb + 1) } := by
  rw [command, if_neg (by decide), if_neg (by decide), if_neg (by decide), if_neg (by decide),
    if_pos rfl]

private theorem command_wb : m.command regNb "WB".toList args = m.wb args := by
  rw [command, if_neg (by decide), if_neg (by decide), if_neg (by decide), if_neg (by decide),
    if_neg (by decide), if_pos rfl]

private theorem command_util : m.command regNb "UTIL".toList (w :: args) = some m := by
  rw [command, if_neg (by decide), if_neg (by decide), if_neg (by decide), if_neg (by decide),
    if_neg (by decide), if_neg (by decide), if_neg (by decide), if_pos rfl]
  rfl

private theorem command_erase : m.command regNb "ERASE".toList args = some m := by
  rw [command, if_neg (by decide), if_neg (by decide), if_neg (by decide), if_neg (by decide),
    if_neg (by decide), if_neg (by decide), if_neg (by decide), if_neg (by decide)]

private theorem write_page {length : ℤ} (h : scan scanUnsigned w = some length) :
    m.write ("PAGE".toList :: w :: args) = some
      { m with
        writeSecCount := toU32 (m.writeSecCount + length)
        writeCount := toI32 (m.writeCount + 1) } := by
  unfold write
  dsimp only
  rw [if_pos rfl, List.head?_cons]
  simp only [Option.bind_eq_bind, Option.bind_some, h]

private theorem read_page {length : ℤ} (h : scan scanUnsigned w = some length) :
    m.read ("PAGE".toList :: w :: args) = some
      { m with
        readSecCount := toU32 (m.readSecCount + length)
        readCount := toI32 (m.readCount + 1) } := by
  unfold read
  dsimp only
  rw [if_pos rfl, List.head?_cons]
  simp only [Option.bind_eq_bind, Option.bind_some, h]

private theorem write_bw : m.write ("BW".toList :: w :: args) = some m := by
  unfold write
  dsimp only
  rw [if_neg (by decide), if_pos rfl]
  rfl

private theorem read_bw : m.read ("BW".toList :: w :: args) = some m := by
  unfold read
  dsimp only
  rw [if_neg (by decide), if_pos rfl]
  rfl

private theorem wb_correct {n : ℤ} (h : scan scanLong w = some n) :
    m.wb ["CORRECT".toList, w] =
      some { m with writtenCorrectCount := toI64 (m.writtenCorrectCount + n) } := by
  unfold wb
  dsimp only
  rw [if_pos rfl, h, Option.getD_some]

private theorem wb_amp {n : ℤ} (h : scan scanLong w = some n) :
    m.wb ["AMP".toList, w] = some { m with writeAmpCount := toI64 (m.writeAmpCount + n) } := by
  unfold wb
  dsimp only
  rw [if_neg (by decide), h, Option.getD_some]

end Monitor

/-- **One message**: what is sent is what is counted. -/
theorem handle_text {msg : Message} (h : msg.Ok) (regNb : ℤ) (m : Monitor) :
    m.handle regNb (msg.text ++ ['\n']) = some (msg.count m) := by
  rw [Monitor.handle, h.fields]
  cases msg with
  | readPage length =>
    have hscan := (scan_numeral scanUnsigned (toI32 length)).1
    rw [scanUnsigned_toI32 h] at hscan
    exact (m.command_read regNb _).trans (m.read_page _ _ hscan)
  | writePage length =>
    have hscan := (scan_numeral scanUnsigned (toI32 length)).1
    rw [scanUnsigned_toI32 h] at hscan
    exact (m.command_write regNb _).trans (m.write_page _ _ hscan)
  | wbCorrect n =>
    exact (m.command_wb regNb _).trans (m.wb_correct _ (scanLong_numeral h))
  | gc => exact m.command_gc regNb _
  | wbAmp n => exact (m.command_wb regNb _).trans (m.wb_amp _ (scanLong_numeral h))
  | erase => exact m.command_erase regNb _
  | readBw w => exact (m.command_read regNb _).trans (m.read_bw _ _)
  | writeBw w => exact (m.command_write regNb _).trans (m.write_bw _ _)
  | util w => exact m.command_util regNb _ _

/-! ### Streams of messages -/

/-- What the simulator has sent after some messages. -/
def messageStream (msgs : List Message) : List Char :=
  msgs.foldl (fun sent msg => writeLog true sent msg.text) []

private theorem messageStream_eq (msgs : List Message) :
    messageStream msgs = (msgs.map Message.text).flatMap fun line => line ++ ['\n'] := by
  have hsent : ∀ sent : List Char, msgs.foldl (fun sent msg => writeLog true sent msg.text) sent =
      sent ++ (msgs.map Message.text).flatMap fun line => line ++ ['\n'] := by
    induction msgs with
    | nil => simp
    | cons msg msgs ih =>
      intro sent
      rw [List.foldl_cons, ih, writeLog, if_pos rfl, List.map_cons, List.flatMap_cons]
      simp only [List.append_assoc]
  exact hsent []

private theorem newline_lines {msgs : List Message} (hok : ∀ msg ∈ msgs, msg.Ok) :
    ∀ line ∈ msgs.map Message.text, ∀ c ∈ line, (c == '\n') = false := by
  intro line hline
  obtain ⟨msg, hmsg, rfl⟩ := List.mem_map.mp hline
  exact (hok msg hmsg).newline

/-- What the monitor has counted when messages, and a part of the next, have arrived. -/
theorem onReceive_stream (msgs : List Message) (hok : ∀ msg ∈ msgs, msg.Ok) (regNb : ℤ)
    (m : Monitor) {packets : List (List Char)} {rest : List Char}
    (hpackets : packets.flatten = messageStream msgs ++ rest)
    (hrest : ∀ c ∈ rest, (c == '\n') = false) :
    packets.foldl (Monitor.onReceive regNb) (some m, []) =
      (some (msgs.foldl Message.count m), rest) := by
  have hcount : ∀ m : Monitor, (msgs.map Message.text).foldl
      (fun m line => m.bind fun m => m.handle regNb (line ++ ['\n'])) (some m) =
        some (msgs.foldl Message.count m) := by
    clear hpackets
    induction msgs with
    | nil => exact fun _ => rfl
    | cons msg msgs ih =>
      intro m
      rw [List.map_cons, List.foldl_cons, Option.bind_some, handle_text (hok msg (by simp))]
      exact ih (fun msg hmsg => hok msg (List.mem_cons_of_mem _ hmsg)) _
  refine (foldl_receive packets (some m, []) rfl).trans ?_
  rw [hpackets, messageStream_eq, receive_records rfl _ (newline_lines hok) hrest, hcount]

/-- **Messages arrive as they are sent.** Whatever has arrived of the stream and in whatever
packets, the monitor has counted the messages that have arrived as a whole, in their order, and the
socket keeps the rest, in which no line ends; nothing is left when all has arrived. -/
theorem receive_messages (msgs : List Message) (hok : ∀ msg ∈ msgs, msg.Ok) (regNb : ℤ)
    (m : Monitor) {packets : List (List Char)} (hpackets : packets.flatten <+: messageStream msgs) :
    ∃ n ≤ msgs.length, ∃ rest, packets.flatten = messageStream (msgs.take n) ++ rest ∧
      '\n' ∉ rest ∧
      packets.foldl (Monitor.onReceive regNb) (some m, []) =
        (some ((msgs.take n).foldl Message.count m), rest) ∧
      (packets.flatten = messageStream msgs → n = msgs.length ∧ rest = []) := by
  by_cases hall : packets.flatten = messageStream msgs
  · refine ⟨msgs.length, le_rfl, [], ?_, List.not_mem_nil, ?_, fun _ => ⟨rfl, rfl⟩⟩
    · rw [List.take_length, List.append_nil, hall]
    · rw [List.take_length]
      exact onReceive_stream msgs hok regNb m (hall.trans (List.append_nil _).symm) (by simp)
  · rw [messageStream_eq] at hpackets
    obtain ⟨n, hn, rest, hflat, hrest⟩ := exists_records _ (newline_lines hok) hpackets
    rw [← List.map_take, ← messageStream_eq] at hflat
    rw [List.length_map] at hn
    have hline : '\n' ∉ rest := fun hmem => Bool.noConfusion (hrest _ hmem)
    refine ⟨n, hn, rest, hflat, hline, ?_, fun h => absurd h hall⟩
    exact onReceive_stream _ (fun msg hmsg => hok msg (List.mem_of_mem_take hmsg)) regNb m hflat
      hrest

/-- A collection, a read and a write with a utilisation in between, in packets that end within a
line. -/
theorem receive_messages_split : ∃ m,
    ["GC \nWB A".toList, "MP 3\nREAD PAGE 8 \nUTIL 1.5 \nWRITE ".toList, "PAGE -1 \n".toList].foldl
      (Monitor.onReceive 4) (some .zero, []) = (some m, []) ∧
    m.gcNb = 1 ∧ m.writeAmpCount = 3 ∧ m.readSecCount = 8 ∧ m.writeSecCount = 2 ^ 32 - 1 := by
  have hok : ∀ msg ∈ [.gc, .wbAmp 3, .readPage 8, .util "1.5".toList, .writePage (2 ^ 32 - 1)],
      Message.Ok msg := by
    simp only [List.forall_mem_cons]
    exact ⟨trivial, ⟨by decide, by decide⟩, (by decide : 8 < 2 ^ 32), Message.isWord rfl,
      (by decide : 2 ^ 32 - 1 < 2 ^ 32), by simp⟩
  have hall : ["GC \nWB A".toList, "MP 3\nREAD PAGE 8 \nUTIL 1.5 \nWRITE ".toList,
      "PAGE -1 \n".toList].flatten = messageStream
        [.gc, .wbAmp 3, .readPage 8, .util "1.5".toList, .writePage (2 ^ 32 - 1)] := by
    decide +kernel
  obtain ⟨n, -, rest, -, -, hcount, hend⟩ := receive_messages _ hok 4 .zero
    ⟨[], (List.append_nil _).trans hall⟩
  obtain ⟨rfl, rfl⟩ := hend hall
  exact ⟨_, hcount, by decide +kernel, by decide +kernel, by decide +kernel, by decide +kernel⟩

end Vssim
