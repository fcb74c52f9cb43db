import MiniKV.Protocol.Encoding
import MiniKV.Server.Server

/- Lines as a client reads them: up to the first line feed, with no limit for their length. -/
namespace ServerLines
open Decimal Fields ShardModel ProtocolModel ProtocolEncoding ServerModel

/-- The bytes up to the first line feed, which is the last of them, and what follows. -/
def readString (bytes : Text) : Option (Text × Text) :=
  (bytes.findIdx? fun b => b == lf).map fun i => (bytes.take (i + 1),bytes.drop (i + 1))

/-- A line that ends with CRLF, without it. -/
def readLine (bytes : Text) : Option (Text × Text) :=
  match readString bytes with
  | none => none
  | some (line,rest) => if [cr,lf] <:+ line then some (line.take (line.length - 2),rest) else none

variable {body key : Text}

theorem readString_line (plain : lf ∉ body) (rest : Text) :
    readString (body ++ cr :: lf :: rest) = some (body ++ [cr,lf],rest) := by
  have whole : body ++ cr :: lf :: rest = (body ++ [cr,lf]) ++ rest := by simp
  have size : (body ++ [cr,lf]).length = body.length + 1 + 1 := by simp
  rw [readString, findIdx_line plain, Option.map_some, whole, List.take_left' size,
    List.drop_left' size]

theorem ended_trimmed (body : Text) :
    (body ++ [cr,lf]).take ((body ++ [cr,lf]).length - 2) = body := by simp

theorem readLine_line (plain : lf ∉ body) (rest : Text) :
    readLine (body ++ cr :: lf :: rest) = some (body,rest) := by
  rw [readLine, readString_line plain]
  dsimp only
  rw [if_pos (List.suffix_append _ _), ended_trimmed]

theorem valueLine_unwords (key : Text) (item : Item) :
    valueLine key item = unwords [text "VALUE", key, formatNat item.value.length] := by
  have head : text "VALUE " = text "VALUE" ++ [0x20] := by decide
  have blank : text " " = [0x20] := by decide
  simp [valueLine, head, blank, unwords]

theorem value_isWord : IsWord (text "VALUE") := by decide

theorem header_areWords (isWord : IsWord key) (n : Nat) :
    ∀ word ∈ [text "VALUE", key, formatNat n], IsWord word := by
  simp [value_isWord, isWord, number_isWord]

end ServerLines
