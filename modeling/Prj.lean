import Prj.Lib13.PackRoundTrip
import Prj.Lib13.UnpackSafety
import Prj.Lib13.StrRoundTrip
import Prj.Ddlus.Assign
import Prj.Ddlus.Rule
import Prj.Ddlus.IfElse
import Prj.Lib13.Wild
import Prj.Lib13.CopyFile
import Prj.Lib13.Where
import Prj.Lib13.Takeover
import Prj.Lib13.Insert
import Prj.Lib13.PackedReceive
import Prj.Jlib.CellRoundTrip
import Prj.Jlib.CellRemove
import Prj.Monet.RequestSend
import Prj.Monet.Session
import Prj.Infolink.PollRuns
import Prj.Jlib.BlockCheck
import Prj.Jlib.JpackRoundTrip
import Prj.Step13.Modif
import Prj.Step13.Separate
import Prj.Jlib.JtableRoundTrip
import Prj.Jlib.ColType
import Prj.Jlib.Tables
import Prj.Jlib.RowList
import Prj.Jlib.JournalRecover
import Prj.Jlib.JssPersist
import Prj.Jlib.JtableSize
import Prj.Jlib.JtableText
import Prj.Infolink.ExplodePkt
import Prj.Ddlus.Date
import Prj.Ddlus.GettokText
import Prj.Ddlus.VarRemove
import Prj.Ddlus.ArrayDup
import Prj.Ddlus.ArrayCreate
import Prj.Lib13.Pool
import Prj.Ddlus.NumberText
import Prj.Lib13.Bst
import Prj.Lib13.RegionLock
import Prj.Jlib.TableLock
import Prj.Lib13.Reqid
import Prj.Lib13.PackSize
import Prj.Ddlus.Binary
import Prj.Jlib.Favourites
import Prj.Jlib.DptrChain
import Prj.Jlib.JournalQueue
import Prj.Jlib.JnConn
import Prj.Jlib.JcsLimits
import Prj.Jlib.Undo
