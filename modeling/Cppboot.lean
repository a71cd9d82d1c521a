import Cppboot.OutputStream
import Cppboot.BusDelivery
import Cppboot.RequestEncoding
import Cppboot.FileServer
import Cppboot.HttpLifeCycle
import Cppboot.HttpExchange
import Cppboot.PluginFailure
import Cppboot.PluginClosure
import Cppboot.PluginHost
import Cppboot.BusRouting
import Cppboot.BusWaiting
import Cppboot.BusMagic
import Cppboot.BufferQueue
import Cppboot.ChatRoom
import Cppboot.Timestamp
import Cppboot.JsonReformat
import Cppboot.TodoRuns
import Cppboot.QueryParams
import Cppboot.RemoveAll
import Cppboot.RequestVersion
import Cppboot.PluginNames
import Cppboot.ArgLine
import Cppboot.ArgsParse
import Cppboot.ArgsLong
import Cppboot.FormEncoding
import Cppboot.UrlReads
import Cppboot.ResponseTrip
import Cppboot.ObjectEnv
import Cppboot.StatusRuns
import Cppboot.StrFields
import Cppboot.StrReplace
import Cppboot.SocketAddr
import Cppboot.CopyFile
import Cppboot.MakeDirs
import Cppboot.ViewSearch
import Cppboot.Html
