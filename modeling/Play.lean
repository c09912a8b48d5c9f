import Play.Runs
import Play.Framing
import Play.SendPath
import Play.Callbacks
import Play.Closing
import Play.Chunking
import Play.CallFails
import Play.CallFb
import Play.Stall
import Play.Server
import Play.Client
import Play.Silent
import Play.Find
import Play.Room
import Play.CallQueue
import Play.Wire
import Play.SharedKeys
import Play.Failing
import Play.Ticking
import Play.Targets
import Play.Headers
import Play.Checks
import Play.Payloads
import Play.Snowflake
import Play.Timer
import Play.SessionContainer
import Play.Nonces
import Play.SharedTopics
import Play.ExtraReplies
import Play.Retry
import Play.Pieces
import Play.StringUtil
import Play.JsonReader
import Play.EncodeChecks
import Play.ObjectPool
import Play.JumpCalls
import Play.SendBuffers
import Play.Runner
import Play.Stack
import Play.Subscriber
import Play.Wires
import Play.Backlog
import Play.Script
import Play.BotTimer
import Play.Progress
import Play.Reconnect
import Play.Direct
