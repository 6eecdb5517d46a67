import SimpleRedis.RespStream

/-!
# Commands and pipelines

`buildRESPCommand` writes a command as an array of bulk strings, one argument after
the other. What it writes is the encoding of that array, so the parser reads a
command back wherever it stands in a string, and a pipeline of commands one by one.
-/
namespace SimpleRedis.Resp

/-- The loop of `buildRESPCommand`. -/
def appendArgs (cmd : List CChar) : List (List CChar) → List CChar
  | [] => cmd
  | arg :: args =>
      appendArgs (cmd ++ (ch '$' :: (decimal arg.length ++ crlf)) ++ (arg ++ crlf)) args

/-- `buildRESPCommand`. -/
def buildRESPCommand (args : List (List CChar)) : List CChar :=
  appendArgs (ch '*' :: (decimal args.length ++ crlf)) args

/-- The value that a command is on the wire. -/
def commandValue (args : List (List CChar)) : RESPValue := .array (args.map .bulkString)

theorem appendArgs_eq (cmd : List CChar) (args : List (List CChar)) :
    appendArgs cmd args = cmd ++ encAll (args.map .bulkString) := by
  induction args generalizing cmd with
  | nil => simp [appendArgs, encAll]
  | cons arg args ih =>
      rw [appendArgs, ih, List.map_cons, encAll, RESPValue.enc]
      simp

theorem buildRESPCommand_eq_enc (args : List (List CChar)) :
    buildRESPCommand args = (commandValue args).enc := by
  rw [buildRESPCommand, appendArgs_eq, commandValue, RESPValue.enc, List.length_map]
  rfl

theorem buildRESPCommand_length_pos (args : List (List CChar)) :
    0 < (buildRESPCommand args).length := by
  rw [buildRESPCommand_eq_enc]
  exact RESPValue.enc_length_pos _

theorem encAll_commandValue (cmds : List (List (List CChar))) :
    encAll (cmds.map commandValue) = (cmds.map buildRESPCommand).flatten := by
  induction cmds with
  | nil => rfl
  | cons args cmds ih =>
      rw [List.map_cons, encAll, ih, List.map_cons, List.flatten_cons, buildRESPCommand_eq_enc]

/-- The parser reads back every value in every surroundings, a command is the encoding
of an array of bulk strings, and calls of the parser read a pipeline back command by
command. -/
theorem parse_enc_pipeline {memory : Memory} {v : RESPValue} (hv : v.WellFormed memory)
    (args : List (List CChar)) {cmds : List (List (List CChar))}
    (hcmds : AllWellFormed memory (cmds.map commandValue)) (pre rest : List CChar) :
    parse memory (pre ++ v.enc ++ rest) pre.length = .ok (v, pre.length + v.enc.length) ∧
      buildRESPCommand args = (RESPValue.array (args.map .bulkString)).enc ∧
      parseElements (parse memory (pre ++ (cmds.map buildRESPCommand).flatten ++ rest))
          cmds.length pre.length =
        .ok (cmds.map commandValue, pre.length + (cmds.map buildRESPCommand).flatten.length) := by
  refine ⟨parse_enc hv pre rest, buildRESPCommand_eq_enc args, ?_⟩
  have hlength : cmds.length = (cmds.map commandValue).length := (List.length_map _).symm
  rw [← encAll_commandValue, hlength]
  refine parseElements_encAll _ hcmds _ _ rest ?_ (drop_between pre _ rest)
  simp only [List.length_append]
  omega

/-- A nested value with a line end in a bulk string, and two commands. -/
theorem parse_enc_pipeline_nested :
    parse .unbounded ([1] ++
        (RESPValue.array [.bulkString [13, 10], .array [.null, .integer (-5)]]).enc ++ [2])
        [1].length =
      .ok (.array [.bulkString [13, 10], .array [.null, .integer (-5)]], [1].length +
        (RESPValue.array [.bulkString [13, 10], .array [.null, .integer (-5)]]).enc.length) ∧
      buildRESPCommand [[71]] = (RESPValue.array ([[71]].map .bulkString)).enc ∧
      parseElements (parse .unbounded
          ([1] ++ ([[[71], [72]], [[80]]].map buildRESPCommand).flatten ++ [2]))
          [[[71], [72]], [[80]]].length [1].length =
        .ok ([[[71], [72]], [[80]]].map commandValue,
          [1].length + ([[[71], [72]], [[80]]].map buildRESPCommand).flatten.length) :=
  parse_enc_pipeline
    (by simp [RESPValue.WellFormed, AllWellFormed, Memory.unbounded, maxElements]) [[71]]
    (by simp [commandValue, RESPValue.WellFormed, AllWellFormed, Memory.unbounded, maxElements])
    [1] [2]

end SimpleRedis.Resp
