import XeusCpp.Text.Bytes
import XeusCpp.Text.Reader
import XeusCpp.Text.Json
import XeusCpp.Text.Denotes
import XeusCpp.Text.Dump
import XeusCpp.Text.Regex
import XeusCpp.Text.RegexReads
import XeusCpp.Logic.Machine
import XeusCpp.Logic.Bracket
import XeusCpp.Logic.Overwrite
import XeusCpp.Logic.Session
import XeusCpp.Logic.Ownership
import XeusCpp.Logic.Cover
import XeusCpp.Logic.History
import XeusCpp.Host.World
import XeusCpp.Host.Reply
import XeusCpp.Host.JsonLibrary
import XeusCpp.Host.Spelling
import XeusCpp.Validator.Lexer
import XeusCpp.Validator.Lexeme
import XeusCpp.Validator.Validate
import XeusCpp.Validator.Scan
import XeusCpp.Validator.ReadBounds
import XeusCpp.Validator.Seam
import XeusCpp.Validator.Directive
import XeusCpp.Validator.Pieces
import XeusCpp.Validator.Cursor
import XeusCpp.Validator.Comment
import XeusCpp.Validator.Literal
import XeusCpp.Validator.Completable
import XeusCpp.Validator.Brackets
import XeusCpp.Validator.Opened
import XeusCpp.Validator.Template
import XeusCpp.Validator.LineComment
import XeusCpp.Validator.Trailer
import XeusCpp.Validator.Frame
import XeusCpp.Validator.Source
import XeusCpp.Validator.Outline
import XeusCpp.Validator.Constant
import XeusCpp.Validator.Calls
import XeusCpp.Validator.Indent
import XeusCpp.Validator.Marks
import XeusCpp.Assist.History
import XeusCpp.Assist.Escaping
import XeusCpp.Assist.Prompt
import XeusCpp.Assist.Conversation
import XeusCpp.Magics.Manager
import XeusCpp.Magics.Split
import XeusCpp.Magics.Cells
import XeusCpp.Magics.WriteFile
import XeusCpp.Magics.Registered
import XeusCpp.Magics.Failure
import XeusCpp.Assist.Reset
import XeusCpp.Assist.Session
import XeusCpp.Assist.Body
import XeusCpp.Assist.Header
import XeusCpp.Interpreter.Streams
import XeusCpp.Interpreter.Inspect
import XeusCpp.Interpreter.Execute
import XeusCpp.Interpreter.Lookup
import XeusCpp.Interpreter.Documented
import XeusCpp.Interpreter.Answers
import XeusCpp.Interpreter.Redirect
import XeusCpp.Interpreter.Publish
import XeusCpp.Interpreter.Silent
import XeusCpp.Interpreter.Tooltip
import XeusCpp.Interpreter.Delivered
import XeusCpp.Interpreter.Holder
import XeusCpp.Interpreter.Preambles
import XeusCpp.Interpreter.Frontend
import XeusCpp.Interpreter.Interaction
import XeusCpp.Interpreter.Notebook
import XeusCpp.Interpreter.Complete
import XeusCpp.Interpreter.IsComplete
import XeusCpp.Interpreter.Buffer
import XeusCpp.Interpreter.Input
import XeusCpp.Interpreter.Shell
import XeusCpp.Interpreter.Builder
