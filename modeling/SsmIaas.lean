import SsmIaas.Lib.BitString
import SsmIaas.Player.BitReader
import SsmIaas.Player.Codes
import SsmIaas.Player.Blocks
import SsmIaas.Player.MotionVectors
import SsmIaas.Player.Slices
import SsmIaas.Lib.Run
import SsmIaas.Lib.Scan
import SsmIaas.Lib.CString
import SsmIaas.LoadBalancer.SocketUtil
import SsmIaas.LoadBalancer.Redis
import SsmIaas.LoadBalancer.Select
import SsmIaas.LoadBalancer.SlotRace
import SsmIaas.LoadBalancer.Sequential
import SsmIaas.WebServer.ImageSocket
import SsmIaas.VMManager.Command
import SsmIaas.VMManager.Processes
import SsmIaas.VMManager.AndroidSlots
import SsmIaas.VMManager.Wire
import SsmIaas.Images.System
import SsmIaas.Images.Index
import SsmIaas.Images.Agreement
import SsmIaas.Lib.Raster
import SsmIaas.Qemu.FrameData
import SsmIaas.Qemu.DesktopUpdate
import SsmIaas.Lib.Ring
import SsmIaas.Lib.RingQueue
import SsmIaas.Qemu.AudioRing
import SsmIaas.Qemu.AudioStream
import SsmIaas.Qemu.Geometry
import SsmIaas.Qemu.EventThread
import SsmIaas.Qemu.EventStream
import SsmIaas.Qemu.ClientData
import SsmIaas.Qemu.AndroidTouch
import SsmIaas.Lib.JavaScript
import SsmIaas.LoadBalancer.JoinMember
import SsmIaas.LoadBalancer.Login
import SsmIaas.Lib.Ppm
import SsmIaas.Qemu.FrameFile
import SsmIaas.Qemu.AndroidFrame
import SsmIaas.Lib.Bounds
import SsmIaas.Qemu.UpdateBounds
import SsmIaas.Qemu.AudioCapture
import SsmIaas.Lib.Path
import SsmIaas.VMManager.WorkDir
import SsmIaas.Lib.Shell
import SsmIaas.VMManager.ShellLine
import SsmIaas.Lib.Tokens
import SsmIaas.VMManager.Connections
import SsmIaas.Qemu.EventSafety
import SsmIaas.Qemu.QuarterTurn
import SsmIaas.WebServer.DesktopPage
import SsmIaas.Lib.Roster
import SsmIaas.WebServer.EventRelay
import SsmIaas.Lib.Tickets
import SsmIaas.LoadBalancer.ImageNumbers
import SsmIaas.WebServer.AudioPage
import SsmIaas.WebServer.AudioRelay
import SsmIaas.Qemu.TabletQueue
import SsmIaas.Qemu.PointerInput
import SsmIaas.Qemu.PageInput
import SsmIaas.Qemu.Ps2Keyboard
import SsmIaas.VMManager.CommandScript
import SsmIaas.Images.Documents
import SsmIaas.Images.HostFiles
import SsmIaas.Lib.Segment
import SsmIaas.Player.Idct
import SsmIaas.Player.Pictures
import SsmIaas.WebServer.ImageRelay
import SsmIaas.Player.Playback
import SsmIaas.Player.Canvas
