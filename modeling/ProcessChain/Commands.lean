import ProcessChain.Node

/-! The bootstrap command that saves the chain. It asks node 0 with an empty query and
writes the payload of the response into the file. -/

namespace ProcessChain

/-- What `send_request` puts on the connection for the text `""`. -/
def saveRequest : Option Message := ipcSend .queryChain 0 [] 0

/-- The contents of the file after the command; `none` is a file that does not exist.
There is no response where the path does not fit or `send_request` fails. Opening the
file for writing empties it. -/
def commandSaveBlockchain (opened : Bool) (file : Option Bytes) (response : Option Message) : Option Bytes :=
  match response with
  | none => file
  | some response => if opened then some response.payload else file

end ProcessChain
